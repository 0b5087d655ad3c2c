import SJava.FileAccess

/-!
# Trees of files

Files and directories below one directory, which paths start from, and access to them.
-/

namespace SJava

inductive FileNode
  | file (bytes : ByteArray)
  | directory

/-- The files of a tree, and those of its directories that are listed. A directory is there too when
something is below it. -/
structure FileTree where
  entries : List (List String × FileNode) := []

namespace FileTree

def partsOf (path : String) : List String := path.splitOn "/"

def namesOf (path : String) : List String :=
  (partsOf path).filter fun part => part != "" && part != "."

def put (tree : FileTree) (path : String) (node : FileNode) : FileTree :=
  ⟨(namesOf path, node) :: tree.entries⟩

def node? (tree : FileTree) (place : List String) : Option FileNode :=
  match tree.entries.lookup place with
  | some node => some node
  | none =>
      if place.isEmpty || tree.entries.any fun entry => place.isPrefixOf entry.1 then
        some .directory
      else none

/-- Follows the parts of a path from a place. Only directories lead further. -/
def follow (tree : FileTree) (place : List String) (node : FileNode) :
    List String → Except String (List String × FileNode)
  | [] => .ok (place, node)
  | part :: parts =>
      match node with
      | .file _ => .error notADirectory
      | .directory =>
          if part == "" || part == "." then tree.follow place .directory parts
          else if part == ".." then tree.follow place.dropLast .directory parts
          else
            match tree.node? (place ++ [part]) with
            | none => .error notFound
            | some node => tree.follow (place ++ [part]) node parts

/-- What a path leads to. The empty path leads nowhere. -/
def find (tree : FileTree) (path : String) : Except String (List String × FileNode) :=
  if path == "" then .error notFound else tree.follow [] .directory (partsOf path)

def nameBelow? (place : List String) (entry : List String × FileNode) : Option String :=
  if place.isPrefixOf entry.1 then (entry.1.drop place.length).head? else none

def source (tree : FileTree) (path : String) : Except String Source :=
  match tree.find path with
  | .error reason => .error reason
  | .ok (_, .directory) => .ok [.error isADirectory]
  | .ok (_, .file bytes) => .ok (.ofBytes bytes)

def text (tree : FileTree) (path : String) : Except String String :=
  match tree.find path with
  | .error reason => .error reason
  | .ok (_, .directory) => .error isADirectory
  | .ok (_, .file bytes) =>
      match String.fromUTF8? bytes with
      | some text => .ok text
      | none => .error notUtf8

def isThere (tree : FileTree) (path : String) : Bool :=
  match tree.find path with
  | .ok _ => true
  | .error _ => false

def isDirectory (tree : FileTree) (path : String) : Bool :=
  match tree.find path with
  | .ok (_, .directory) => true
  | _ => false

def names (tree : FileTree) (path : String) : List String :=
  match tree.find path with
  | .ok (place, .directory) => (tree.entries.filterMap (nameBelow? place)).eraseDups
  | _ => []

def access (tree : FileTree) : FileAccess Id where
  source path := tree.source path
  text path := tree.text path
  isThere path := tree.isThere path
  isDirectory path := tree.isDirectory path
  names path := tree.names path

end FileTree

end SJava
