import SJava.Fault

/-!
# The form of a line

A line is made from its tokens, read along the grammar of its kind, and checked for its form: it
ends with the right token and every token may follow the one before it.
-/

namespace SJava

def Line.ofTokens (number : UInt32) (tokens : List Token) : Except Cause Line :=
  match tokens with
  | [] => .error .noTokens
  | first :: _ =>
      match LineKind.ofFirst? first.kind with
      | none => .error (.badStart first.kind)
      | some kind => .ok { number, kind, tokens }

/-- Follows tokens from role to role. Each token is shown to `visit` in its role before the next
one is looked at. -/
def LineKind.read {σ : Type} (kind : LineKind) (visit : σ → Role → Token → Except Cause σ) :
    σ → Role → List Token → Except Cause σ
  | state, _, [] => .ok state
  | state, role, token :: rest =>
      match kind.next? role token.kind with
      | none => .error (.unexpected kind role token.kind)
      | some played =>
          match visit state played token with
          | .error cause => .error cause
          | .ok state => kind.read visit state played rest

namespace Line

/-- Reads a line from its second token on, since the first has decided its kind. -/
def read {σ : Type} (line : Line) (visit : σ → Role → Token → Except Cause σ) (state : σ) :
    Except Cause σ :=
  line.kind.read visit state line.kind.opening line.tokens.tail

def checkEnd (line : Line) (expected : TokenKind) : Except Cause Unit :=
  if line.last? = some expected then .ok () else .error (.badEnd expected line.last?)

def checkAlone (line : Line) : Except Cause Unit :=
  match line.tokens with
  | first :: extra :: _ => .error (.notAlone first.kind extra.kind)
  | _ => .ok ()

/-- Checks the last token before the others. A line that needs no last token stands alone on its
first, unless it is a comment, which has no form to check. -/
def checkForm (line : Line) : Except Cause Unit :=
  match line.kind.terminator? with
  | some last => do
      line.checkEnd last
      line.read (fun _ _ _ => .ok ()) ()
  | none => if line.kind = .comment then .ok () else line.checkAlone

end Line

end SJava
