import SJava.Proofs.Run
import SJava.Proofs.Tables

/-!
# Blocks of a program

The blocks around a line, found by matching brackets alone: a block is the place of the line that
opens it (`blocksAround`). The verifier writes a path of segments on each line instead. The two
agree (`Recorded.path_at`), and as no two blocks of a program have the same segment
(`Recorded.segmentAt_inj`), lines have the same scope exactly if they lie directly in the same block
(`Recorded.scope_eq_iff`). Segments of `if` and `while` blocks are 32-bit numbers, so this is for
programs of fewer than 2³² lines.
-/

namespace SJava

/-- The blocks that are open after one more line, innermost first. -/
def blocksAfter (opened : List Nat) (place : Nat) (line : Line) : List Nat :=
  if line.kind.opens then place :: opened
  else if line.kind = .closingBracket then opened.tail
  else opened

def openBlocks (lines : List Line) : List Nat :=
  lines.zipIdx.foldl (fun opened (line, place) => blocksAfter opened place line) []

/-- The blocks that the line at a place lies in. A line that opens a block lies outside of it, and
so does the bracket that closes it. -/
def blocksAround (lines : List Line) (place : Nat) : List Nat :=
  if lines[place]?.any (·.kind.opens) then openBlocks (lines.take place)
  else openBlocks (lines.take (place + 1))

/-- The block that the line at a place lies directly in. -/
def blockOf? (lines : List Line) (place : Nat) : Option Nat := (blocksAround lines place).head?

/-- The segment of a block that comes after some lines and is opened by `line`. -/
def segmentAfter (before : List Line) (line : Line) : Segment :=
  match line.kind with
  | .methodHeader => .method ((line.header?.map Prod.fst).getD "")
  | .ifHeader => .ifBlock (.ofNat (before.countP fun line => line.kind == .ifHeader) + 1)
  | .whileHeader => .whileBlock (.ofNat (before.countP fun line => line.kind == .whileHeader) + 1)
  | _ => .global

def segmentAt (lines : List Line) (place : Nat) : Segment :=
  match lines[place]? with
  | none => .global
  | some line => segmentAfter (lines.take place) line

variable {lines : List Line} {line : Line} {place : Nat}

theorem openBlocks_append :
    openBlocks (lines ++ [line]) = blocksAfter (openBlocks lines) lines.length line := by
  simp [openBlocks, List.zipIdx_append, List.foldl_append]

theorem segmentAt_append (inside : place < lines.length) :
    segmentAt (lines ++ [line]) place = segmentAt lines place := by
  rw [segmentAt, segmentAt, List.getElem?_append_left inside,
    List.take_append_of_le_length (Nat.le_of_lt inside)]

theorem segmentAt_last : segmentAt (lines ++ [line]) lines.length = segmentAfter lines line := by
  rw [segmentAt, List.getElem?_concat_length, List.take_left]

theorem segmentAt_take {count : Nat} (inside : place < count) :
    segmentAt (lines.take count) place = segmentAt lines place := by
  rw [segmentAt, segmentAt, List.getElem?_take_of_lt inside, List.take_take,
    Nat.min_eq_left (Nat.le_of_lt inside)]

theorem openBlocks_opens (member : place ∈ openBlocks lines) :
    ∃ line, lines[place]? = some line ∧ line.kind.opens = true := by
  induction lines using List.reverseRecOn with
  | nil => cases member
  | append_singleton lines last ih =>
      have earlier (member : place ∈ openBlocks lines) :
          ∃ line, (lines ++ [last])[place]? = some line ∧ line.kind.opens = true := by
        obtain ⟨line, found, opens⟩ := ih member
        rw [← List.getElem?_append_left (List.getElem?_eq_some_iff.mp found).1] at found
        exact ⟨line, found, opens⟩
      rw [openBlocks_append, blocksAfter] at member
      split at member
      · rename_i opens
        rcases List.mem_cons.mp member with rfl | member
        · exact ⟨last, List.getElem?_concat_length, opens⟩
        · exact earlier member
      · split at member
        · exact earlier (List.mem_of_mem_tail member)
        · exact earlier member

theorem openBlocks_lt (member : place ∈ openBlocks lines) : place < lines.length := by
  obtain ⟨line, found, -⟩ := openBlocks_opens member
  exact (List.getElem?_eq_some_iff.mp found).1

theorem blocksAround_opens {block : Nat} (member : block ∈ blocksAround lines place) :
    ∃ line, lines[block]? = some line ∧ line.kind.opens = true := by
  have taken {count : Nat} (member : block ∈ openBlocks (lines.take count)) :
      ∃ line, lines[block]? = some line ∧ line.kind.opens = true := by
    obtain ⟨line, found, opens⟩ := openBlocks_opens member
    rw [List.getElem?_take] at found
    split at found
    · exact ⟨line, found, opens⟩
    · cases found
  rw [blocksAround] at member
  split at member <;> exact taken member

/-- The blocks around an open block are those that were open before it. -/
theorem openBlocks_outer {block : Nat} {outer : List Nat}
    (suffix : (block :: outer) <:+ openBlocks lines) : outer = openBlocks (lines.take block) := by
  induction lines using List.reverseRecOn with
  | nil => simp [openBlocks] at suffix
  | append_singleton lines last ih =>
      have earlier (suffix : (block :: outer) <:+ openBlocks lines) :
          outer = openBlocks ((lines ++ [last]).take block) := by
        have inside : block < lines.length := openBlocks_lt (suffix.subset List.mem_cons_self)
        rw [List.take_append_of_le_length (Nat.le_of_lt inside)]
        exact ih suffix
      rw [openBlocks_append, blocksAfter] at suffix
      split at suffix
      · rcases List.suffix_cons_iff.mp suffix with same | suffix
        · cases same
          rw [List.take_left]
        · exact earlier suffix
      · split at suffix
        · exact earlier (suffix.trans (List.tail_suffix _))
        · exact earlier suffix

theorem blocksAround_outer {block : Nat} {outer : List Nat}
    (around : blocksAround lines place = block :: outer) :
    outer = openBlocks (lines.take block) := by
  have taken {count : Nat} (opened : openBlocks (lines.take count) = block :: outer) :
      outer = openBlocks (lines.take block) := by
    have suffix : (block :: outer) <:+ openBlocks (lines.take count) := by rw [opened]
    have inside := openBlocks_lt (suffix.subset List.mem_cons_self)
    have before := openBlocks_outer suffix
    rw [List.length_take] at inside
    rwa [List.take_take, Nat.min_eq_left (by omega)] at before
  rw [blocksAround] at around
  split at around <;> exact taken around

/-- Lists that go on in one way after each head are equal if their heads are. -/
theorem eq_of_head? {α : Type} {after : α → List α} {xs ys : List α}
    (afterFirst : ∀ x tail, xs = x :: tail → tail = after x)
    (afterSecond : ∀ y tail, ys = y :: tail → tail = after y) (same : xs.head? = ys.head?) :
    xs = ys := by
  cases xs with
  | nil =>
      cases ys with
      | nil => rfl
      | cons => cases same
  | cons x xs =>
      cases ys with
      | nil => cases same
      | cons y ys =>
          cases same
          rw [afterFirst x xs rfl, afterSecond x ys rfl]

theorem map_inj_on {α β : Type} {f : α → β} {xs ys : List α}
    (injective : ∀ x ∈ xs, ∀ y ∈ ys, f x = f y → x = y) (same : xs.map f = ys.map f) : xs = ys := by
  induction xs generalizing ys with
  | nil => exact (List.map_eq_nil_iff.mp same.symm).symm
  | cons x xs ih =>
      cases ys with
      | nil => cases same
      | cons y ys =>
          obtain ⟨head, tail⟩ := List.cons.inj same
          rw [injective x List.mem_cons_self y List.mem_cons_self head,
            ih (fun x inXs y inYs => injective x (List.mem_cons_of_mem _ inXs) y
              (List.mem_cons_of_mem _ inYs)) tail]

theorem map_segmentAt_append {blocks : List Nat} (inside : ∀ place ∈ blocks, place < lines.length) :
    blocks.map (segmentAt (lines ++ [line])) = blocks.map (segmentAt lines) :=
  List.map_congr_left fun place member => segmentAt_append (inside place member)

theorem Registry.Takes.counts {registry next : Registry} (takes : registry.Takes line next) :
    next.ifCount = registry.ifCount + (if line.kind = .ifHeader then 1 else 0) ∧
      next.whileCount = registry.whileCount + (if line.kind = .whileHeader then 1 else 0) := by
  cases takes with
  | declaration kind => rcases kind with kind | kind <;> simp [kind]
  | method kind | ifBlock kind | whileBlock kind | close kind => simp [kind]
  | other kind => rcases kind with kind | kind | kind | kind <;> simp [kind]

namespace Recorded

variable {registry : Registry}

/-- The registry counts the blocks of each sort, up to 2³². -/
theorem counts (h : Recorded registry lines) :
    registry.ifCount = .ofNat (lines.countP fun line => line.kind == .ifHeader) ∧
      registry.whileCount = .ofNat (lines.countP fun line => line.kind == .whileHeader) := by
  induction h with
  | start => exact ⟨rfl, rfl⟩
  | @line registry next lines line before number form takes ih =>
      obtain ⟨ifs, whiles⟩ := takes.counts
      simp only [List.countP_append, List.countP_singleton, beq_iff_eq, UInt32.ofNat_add]
      rw [ifs, whiles, ih.1, ih.2]
      constructor <;> split <;> rfl

/-- The scope of a registry is the path of the blocks that are open. -/
theorem path (h : Recorded registry lines) :
    registry.scope.path = (openBlocks lines).map (segmentAt lines) := by
  induction h with
  | start => rfl
  | @line registry next lines line before number form takes ih =>
      -- The new line leaves the segments of the blocks that were open before as they are.
      have kept : (openBlocks lines).map (segmentAt (lines ++ [line])) = registry.scope.path := by
        rw [ih]
        exact map_segmentAt_append fun _ => openBlocks_lt
      have opened (opens : line.kind.opens = true)
          (body : next.scope.path = segmentAfter lines line :: registry.scope.path) :
          next.scope.path = (openBlocks (lines ++ [line])).map (segmentAt (lines ++ [line])) := by
        rw [openBlocks_append, blocksAfter, if_pos opens, List.map_cons, segmentAt_last, kept, body]
      have stays (opens : line.kind.opens = false) (bracket : line.kind ≠ .closingBracket)
          (same : next.scope = registry.scope) :
          next.scope.path = (openBlocks (lines ++ [line])).map (segmentAt (lines ++ [line])) := by
        rw [openBlocks_append, blocksAfter, if_neg (by simp [opens]), if_neg bracket, kept, same]
      cases takes with
      | declaration kind scope =>
          rcases kind with kind | kind <;> exact stays (by rw [kind]; rfl) (by rw [kind]; nofun) rfl
      | method kind scope header =>
          apply opened (by rw [kind]; rfl)
          rw [segmentAfter, kind, header]
          rfl
      | ifBlock kind =>
          apply opened (by rw [kind]; rfl)
          rw [segmentAfter, kind, ← before.counts.1]
          rfl
      | whileBlock kind =>
          apply opened (by rw [kind]; rfl)
          rw [segmentAfter, kind, ← before.counts.2]
          rfl
      | close kind scope =>
          rw [openBlocks_append, blocksAfter, if_neg (by rw [kind]; nofun), if_pos kind,
            List.map_tail, kept, scope]
          rfl
      | other kind scope =>
          rcases kind with kind | kind | kind | kind <;>
            exact stays (by rw [kind]; rfl) (by rw [kind]; nofun) rfl

theorem path_at (h : Recorded registry lines) (found : lines[place]? = some line) :
    line.scope.path = (blocksAround lines place).map (segmentAt lines) := by
  obtain ⟨before, after, recordedBefore, takes, recordedAfter⟩ := h.split found
  have kept (count : Nat) :
      (openBlocks (lines.take count)).map (segmentAt (lines.take count)) =
        (openBlocks (lines.take count)).map (segmentAt lines) := by
    refine List.map_congr_left fun block member => segmentAt_take ?_
    have inside := openBlocks_lt member
    rw [List.length_take] at inside
    omega
  rw [blocksAround, found, Option.any_some]
  cases opens : line.kind.opens with
  | true => rw [if_pos rfl, takes.around_of_opens opens, recordedBefore.path, kept]
  | false => rw [if_neg nofun, ← takes.scope_of_not_opens opens, recordedAfter.path, kept]

/-- The methods that are known are those with a header among the lines. -/
theorem method_known_iff (h : Recorded registry lines) {name : String} :
    (registry.symbols.methods.find? name).isSome = true ↔
      ∃ header ∈ lines, header.kind = .methodHeader ∧ header.header?.map Prod.fst = some name := by
  induction h with
  | start => simp [MethodTable.find?]
  | @line registry next lines last before number form takes ih =>
      have split : (∃ header ∈ lines ++ [last], header.kind = .methodHeader ∧
            header.header?.map Prod.fst = some name) ↔
          (registry.symbols.methods.find? name).isSome = true ∨
            last.kind = .methodHeader ∧ last.header?.map Prod.fst = some name := by
        rw [ih]
        simp only [List.mem_append, List.mem_singleton, or_and_right, exists_or, exists_eq_left]
      rw [split]
      by_cases kind : last.kind = .methodHeader
      · obtain ⟨_, _, methods, vars, header, fresh, -, -, -, symbols⟩ := takes.of_header kind
        rw [symbols, MethodTable.find?_isSome_of_declare fresh, header]
        simp [kind]
      · have same : next.symbols.methods = registry.symbols.methods := by
          cases takes with
          | method isHeader => exact absurd isHeader kind
          | _ => rfl
        simp [same, kind]

theorem header_fresh (h : Recorded registry lines) {earlier : Line} {i j : Nat} (order : i < j)
    (foundEarlier : lines[i]? = some earlier) (found : lines[j]? = some line)
    (kindEarlier : earlier.kind = .methodHeader) (kind : line.kind = .methodHeader) :
    earlier.header?.map Prod.fst ≠ line.header?.map Prod.fst := by
  intro same
  obtain ⟨before, after, recorded, takes, -⟩ := h.split found
  have member : earlier ∈ lines.take j :=
    List.mem_of_getElem? ((List.getElem?_take_of_lt order).trans foundEarlier)
  obtain ⟨_, _, _, _, header, fresh, -⟩ := takes.of_header kind
  rw [header, Option.map_some] at same
  have known := recorded.method_known_iff.mpr ⟨earlier, member, kindEarlier, same⟩
  rw [(MethodTable.declare_ok fresh).1] at known
  cases known

/-- A segment of a method is that of a block that a header of this method opens. -/
theorem header_of_segment (h : Recorded registry lines) {name : String}
    (segment : segmentAt lines place = .method name) :
    ∃ header parameters, lines[place]? = some header ∧ header.kind = .methodHeader ∧
      header.header? = some (name, parameters) := by
  rw [segmentAt] at segment
  split at segment
  · cases segment
  · rename_i header found
    cases kind : header.kind <;> simp only [segmentAfter, kind, reduceCtorEq] at segment
    obtain ⟨known, parameters, named⟩ :=
      (h.wellFormed header (List.mem_of_getElem? found)).header kind
    rw [named] at segment
    cases segment
    exact ⟨header, parameters, found, kind, named⟩

theorem countP_take_lt {test : Line → Bool} {earlier : Line} {i j : Nat} (order : i < j)
    (found : lines[i]? = some earlier) (counts : test earlier = true) :
    (lines.take i).countP test < (lines.take j).countP test := by
  have step : (lines.take (i + 1)).countP test = (lines.take i).countP test + 1 := by
    rw [List.take_add_one, found, List.countP_append]
    simp [counts]
  have more : (lines.take (i + 1)).countP test ≤ (lines.take j).countP test :=
    (List.take_prefix_take_left order).sublist.countP_le
  omega

theorem segmentAt_ne (h : Recorded registry lines) (few : lines.length < 2 ^ 32) {earlier : Line}
    {i j : Nat} (order : i < j) (foundEarlier : lines[i]? = some earlier)
    (found : lines[j]? = some line) (opensEarlier : earlier.kind.opens = true)
    (opens : line.kind.opens = true) : segmentAt lines i ≠ segmentAt lines j := by
  have inside : j < lines.length := (List.getElem?_eq_some_iff.mp found).1
  -- The number of a block is one more than the blocks of its sort before it, and fits 32 bits.
  have distinct (test : Line → Bool) (counts : test earlier = true) :
      UInt32.ofNat ((lines.take i).countP test) + 1 ≠ .ofNat ((lines.take j).countP test) + 1 := by
    intro same
    have fewer := countP_take_lt order foundEarlier counts
    have most := (lines.take j).countP_le_length (p := test)
    rw [List.length_take] at most
    have numbers := congrArg UInt32.toNat same
    rw [UInt32.toNat_add, UInt32.toNat_add, UInt32.toNat_ofNat', UInt32.toNat_ofNat'] at numbers
    have one : (1 : UInt32).toNat = 1 := rfl
    omega
  intro same
  rw [segmentAt, segmentAt, foundEarlier, found] at same
  simp only [segmentAfter] at same
  cases kindEarlier : earlier.kind <;> rw [kindEarlier] at opensEarlier same <;>
    cases opensEarlier <;> cases kind : line.kind <;> rw [kind] at opens same <;> cases opens <;>
    simp only [reduceCtorEq, Segment.method.injEq, Segment.ifBlock.injEq,
      Segment.whileBlock.injEq] at same
  · obtain ⟨name, _, header⟩ := (h.wellFormed line (List.mem_of_getElem? found)).header kind
    obtain ⟨earlierName, _, earlierHeader⟩ :=
      (h.wellFormed earlier (List.mem_of_getElem? foundEarlier)).header kindEarlier
    apply h.header_fresh order foundEarlier found kindEarlier kind
    rw [header, earlierHeader] at same ⊢
    exact congrArg some same
  · exact distinct _ (by simp [kindEarlier]) same
  · exact distinct _ (by simp [kindEarlier]) same

/-- No two blocks have the same segment. -/
theorem segmentAt_inj (h : Recorded registry lines) (few : lines.length < 2 ^ 32)
    {first second : Line} {i j : Nat} (foundFirst : lines[i]? = some first)
    (foundSecond : lines[j]? = some second)
    (opensFirst : first.kind.opens = true) (opensSecond : second.kind.opens = true)
    (same : segmentAt lines i = segmentAt lines j) : i = j := by
  rcases Nat.lt_trichotomy i j with order | equal | order
  · exact absurd same (h.segmentAt_ne few order foundFirst foundSecond opensFirst opensSecond)
  · exact equal
  · exact absurd same.symm (h.segmentAt_ne few order foundSecond foundFirst opensSecond opensFirst)

theorem map_segmentAt_inj (h : Recorded registry lines) (few : lines.length < 2 ^ 32)
    {xs ys : List Nat}
    (opensFirst : ∀ block ∈ xs, ∃ line, lines[block]? = some line ∧ line.kind.opens = true)
    (opensSecond : ∀ block ∈ ys, ∃ line, lines[block]? = some line ∧ line.kind.opens = true)
    (same : xs.map (segmentAt lines) = ys.map (segmentAt lines)) : xs = ys := by
  apply map_inj_on _ same
  intro block inFirst other inSecond equal
  obtain ⟨opener, found, opens⟩ := opensFirst block inFirst
  obtain ⟨otherOpener, otherFound, otherOpens⟩ := opensSecond other inSecond
  exact h.segmentAt_inj few found otherFound opens otherOpens equal

/-- Lines with the same scope lie in the same blocks. -/
theorem blocksAround_eq (h : Recorded registry lines) (few : lines.length < 2 ^ 32)
    {first second : Line} {i j : Nat} (foundFirst : lines[i]? = some first)
    (foundSecond : lines[j]? = some second) (same : first.scope = second.scope) :
    blocksAround lines i = blocksAround lines j := by
  apply h.map_segmentAt_inj few (fun _ => blocksAround_opens) (fun _ => blocksAround_opens)
  rw [← h.path_at foundFirst, ← h.path_at foundSecond, same]

/-- Lines have the same scope exactly if they lie directly in the same block. -/
theorem scope_eq_iff (h : Recorded registry lines) (few : lines.length < 2 ^ 32)
    {first second : Line} {i j : Nat} (foundFirst : lines[i]? = some first)
    (foundSecond : lines[j]? = some second) :
    first.scope = second.scope ↔ blockOf? lines i = blockOf? lines j := by
  constructor
  · intro same
    rw [blockOf?, blockOf?, h.blocksAround_eq few foundFirst foundSecond same]
  · intro same
    have blocks : blocksAround lines i = blocksAround lines j :=
      eq_of_head? (fun _ _ => blocksAround_outer) (fun _ _ => blocksAround_outer) same
    have paths := h.path_at foundFirst
    rw [blocks, ← h.path_at foundSecond] at paths
    exact congrArg Scope.mk paths

theorem blockOf?_eq (h : Recorded registry lines) (few : lines.length < 2 ^ 32) {opener : Line}
    {block : Nat} (found : lines[place]? = some line) (foundOpener : lines[block]? = some opener)
    (opens : opener.kind.opens = true)
    (inside : line.scope = opener.scope.child (segmentAt lines block)) :
    blockOf? lines place = some block := by
  have path := h.path_at found
  rw [inside, Scope.child] at path
  rw [blockOf?]
  cases around : blocksAround lines place with
  | nil =>
      rw [around] at path
      cases path
  | cons innermost outer =>
      rw [around] at path
      have same : segmentAt lines block = segmentAt lines innermost := (List.cons.inj path).1
      obtain ⟨other, foundOther, opensOther⟩ :=
        blocksAround_opens (by rw [around]; exact List.mem_cons_self)
      rw [h.segmentAt_inj few foundOpener foundOther opens opensOther same, List.head?_cons]

end Recorded

end SJava
