import SJava.Json.Parser
import Mathlib.Data.List.Basic
import Mathlib.Data.List.DropRight
import Mathlib.Data.List.Forall2

/-!
# The text of JSON values

What is written over several lines is read back (`Json.ofText?_pretty`), with the fields of objects
in the order of their keys. A text is said to read as a value if the value is found wherever the
text stands in front of something that no number goes on with, given fuel in proportion to the
text's length (`Json.Reads`). Strings and numbers are written in such texts, and blocks are put
together from them: the reader finds each item behind its comma and the blanks after it.
-/

namespace SJava

namespace Json

variable {cs ds rest : List Char} {c : Char} {fuel depth : Nat}

/-! ## Blanks -/

theorem skipBlanks_append {space : List Char} (blank : ∀ c ∈ space, isBlankChar c = true) :
    skipBlanks (space ++ cs) = skipBlanks cs :=
  List.dropWhile_append_of_pos blank

theorem skipBlanks_skipBlanks (cs : List Char) : skipBlanks (skipBlanks cs) = skipBlanks cs :=
  List.dropWhile_idempotent _ cs

theorem skipBlanks_cons (shown : isBlankChar c = false) : skipBlanks (c :: cs) = c :: cs :=
  List.dropWhile_cons_of_neg (by simp [shown])

theorem valuePart_congr (same : skipBlanks cs = skipBlanks ds) :
    valuePart fuel depth cs = valuePart fuel depth ds := by
  cases fuel with
  | zero => rfl
  | succ fuel => rw [valuePart, valuePart, same]

theorem itemsPart_congr (same : skipBlanks cs = skipBlanks ds) :
    itemsPart fuel depth cs = itemsPart fuel depth ds := by
  cases fuel with
  | zero => rfl
  | succ fuel => rw [itemsPart, itemsPart, valuePart_congr same]

theorem fieldsPart_congr {before : List (String × Json)} (same : skipBlanks cs = skipBlanks ds) :
    fieldsPart fuel depth before cs = fieldsPart fuel depth before ds := by
  cases fuel with
  | zero => rfl
  | succ fuel => rw [fieldsPart, fieldsPart, same]

/-! ## Strings -/

theorem codeUnit?_hexDigit {n : Nat} (control : n < 0x20) :
    codeUnit? '0' '0' (hexDigit (n / 16)) (hexDigit (n % 16)) = some n := by
  have table : ∀ n < 0x20, codeUnit? '0' '0' (hexDigit (n / 16)) (hexDigit (n % 16)) = some n := by
    decide
  exact table n control

theorem stringBody_escape (c : Char) (rest : List Char) :
    stringBody (escape c ++ rest) = (stringBody rest).map fun (cs, rest) => (c :: cs, rest) := by
  unfold escape
  split_ifs with quote backslash backspace feed newline carriage tab control
  case pos | pos | pos | pos | pos | pos | pos =>
    simp_all [stringBody, escaped?]
  case pos =>
    simp only [List.cons_append, List.nil_append, stringBody, codeUnit?_hexDigit control]
    rw [if_neg (by omega), if_neg (by omega), Char.ofNat_toNat]
  case neg =>
    rw [List.cons_append, List.nil_append, stringBody]
    · simp [control, backslash]
    all_goals simp_all

theorem stringBody_flatMap_escape (cs rest : List Char) :
    stringBody (cs.flatMap escape ++ '"' :: rest) = some (cs, rest) := by
  induction cs with
  | nil => simp [stringBody]
  | cons c cs ih =>
      rw [List.flatMap_cons, List.append_assoc, stringBody_escape, ih]
      rfl

/-! ## Numbers -/

def stopsNumber (c : Char) : Bool := !(c.isDigit || c == '.' || c == 'e' || c == 'E')

/-- A text that no number in front of it goes on with. -/
def Ends (rest : List Char) : Prop := ∀ c ∈ rest.head?, stopsNumber c = true

theorem ends_cons (stops : stopsNumber c = true) : Ends (c :: cs) := by
  rintro _ ⟨⟩
  exact stops

theorem stopsNumber_of_isBlankChar (blank : isBlankChar c = true) : stopsNumber c = true := by
  simp only [isBlankChar, Bool.or_eq_true, beq_iff_eq] at blank
  rcases blank with ((rfl | rfl) | rfl) | rfl <;> rfl

theorem fractionPart_of_ends (ends : Ends rest) : fractionPart rest = some (none, rest) := by
  cases rest with
  | nil => rfl
  | cons c rest =>
      have stops := ends c rfl
      rw [fractionPart]
      rintro more ⟨⟩
      cases stops

theorem exponentPart_of_ends (ends : Ends rest) : exponentPart rest = some (none, rest) := by
  cases rest with
  | nil => rfl
  | cons c rest =>
      have stops := ends c rfl
      simp only [stopsNumber, Bool.not_eq_true', Bool.or_eq_false_iff] at stops
      simp [exponentPart, stops]

section

variable {digits : List Char} {n : Nat}

theorem takeWhile_isDigit_append (ends : Ends rest) (all : ∀ c ∈ digits, c.isDigit = true) :
    (digits ++ rest).takeWhile Char.isDigit = digits ∧
      (digits ++ rest).dropWhile Char.isDigit = rest := by
  rw [List.takeWhile_append_of_pos all, List.dropWhile_append_of_pos all]
  cases rest with
  | nil => simp
  | cons c rest =>
      have stops := ends c rfl
      simp only [stopsNumber, Bool.not_eq_true', Bool.or_eq_false_iff] at stops
      simp [stops]

theorem le_foldl_digits (digits : List Char) (n : Nat) :
    n ≤ digits.foldl (fun n d => n * 10 + digitValue d) n := by
  induction digits generalizing n with
  | nil => exact Nat.le_refl n
  | cons d digits ih =>
      have step : n ≤ n * 10 + digitValue d := by omega
      exact step.trans (ih _)

theorem takeDigits_of_fits (fits : digits.foldl (fun n d => n * 10 + digitValue d) n < wordLimit) :
    takeDigits n digits = (digits.foldl (fun n d => n * 10 + digitValue d) n, 0) := by
  induction digits generalizing n with
  | nil => rfl
  | cons d digits ih =>
      have longer : n * 10 + digitValue d < wordLimit := (le_foldl_digits digits _).trans_lt fits
      rw [takeDigits, if_pos longer, ih fits]
      rfl

theorem decimalValue_toDigits (n : Nat) : decimalValue (Nat.toDigits 10 n) = n := by
  have read : Nat.ofDigitChars 10 (Nat.toDigits 10 n) 0 = n := Nat.ofDigitChars_ten_toDigits
  rw [Nat.ofDigitChars] at read
  simpa only [decimalValue, digitValue, Nat.mul_comm 10] using read

theorem head?_toDigits_ne_zero (positive : 0 < n) : (Nat.toDigits 10 n).head? ≠ some '0' := by
  induction n using Nat.strongRecOn with
  | ind n ih =>
      rcases Nat.lt_or_ge n 10 with small | large
      · have table : ∀ n < 10, 0 < n → (Nat.toDigits 10 n).head? ≠ some '0' := by decide
        exact table n small positive
      · have front := ih (n / 10) (Nat.div_lt_self positive (by decide))
          (Nat.div_pos large (by decide))
        rwa [Nat.toDigits_of_base_le (by decide) large,
          List.head?_append_of_ne_nil _ Nat.toDigits_ne_nil]

theorem toDigits_leads (n : Nat) : ((Nat.toDigits 10 n).isEmpty ||
    ((Nat.toDigits 10 n).length > 1 && (Nat.toDigits 10 n).head? == some '0')) = false := by
  rcases Nat.eq_zero_or_pos n with rfl | positive
  · decide
  · simp [head?_toDigits_ne_zero positive, Nat.toDigits_ne_nil]

theorem numberPart_toDigits (fits : n < wordLimit) (ends : Ends rest) :
    numberPart false (Nat.toDigits 10 n ++ rest) = some (.integer n, rest) := by
  obtain ⟨taken, left⟩ := takeWhile_isDigit_append ends
    fun c => Nat.isDigit_of_mem_toDigits (b := 10) (n := n) (by decide) (by decide)
  have value := decimalValue_toDigits n
  have significand : takeDigits 0 (Nat.toDigits 10 n) = (n, 0) := by
    rw [takeDigits_of_fits (by rwa [← decimalValue, value]), ← decimalValue, value]
  have number : numberOf false (Nat.toDigits 10 n) none none = some (.integer n) := by
    simp [numberOf, significand]
  simp [numberPart, taken, left, toDigits_leads, fractionPart_of_ends ends,
    exponentPart_of_ends ends, number]

end

/-! ## Values -/

/-- A text that reads as a value, whatever comes behind it. -/
def Reads (depth : Nat) (text : List Char) (value : Json) : Prop :=
  ∀ fuel rest, 2 * text.length < fuel → Ends rest →
    valuePart fuel depth (text ++ rest) = some (value, rest)

theorem reads_quoted (text : String) : Reads depth (quoted text).toList (.string text) := by
  intro fuel rest enough ends
  obtain ⟨fuel, rfl⟩ := Nat.exists_eq_add_one_of_ne_zero (Nat.ne_zero_of_lt enough)
  have shape : (quoted text).toList ++ rest =
      '"' :: (text.toList.flatMap escape ++ '"' :: rest) := by
    simp [quoted]
  rw [shape, valuePart, skipBlanks_cons rfl]
  simp only [stringBody_flatMap_escape, Option.map_some, String.ofList_toList]

theorem isBlankChar_of_isDigit (digit : c.isDigit = true) : isBlankChar c = false := by
  by_contra blank
  have stops := stopsNumber_of_isBlankChar (Bool.not_eq_false _ ▸ blank)
  simp [stopsNumber, digit] at stops

theorem valuePart_of_isDigit (digit : c.isDigit = true) :
    valuePart (fuel + 1) depth (c :: cs) =
      (numberPart false (c :: cs)).map fun (n, rest) => (.number n, rest) := by
  rw [valuePart, skipBlanks_cons (isBlankChar_of_isDigit digit)]
  split
  case h_8 => rfl
  all_goals
    rename_i shape
    cases shape
    cases digit

theorem reads_repr {n : Nat} (fits : n < wordLimit) :
    Reads depth n.repr.toList (.number (.integer n)) := by
  intro fuel rest enough ends
  obtain ⟨fuel, rfl⟩ := Nat.exists_eq_add_one_of_ne_zero (Nat.ne_zero_of_lt enough)
  have read := numberPart_toDigits fits ends
  obtain ⟨c, digits, shape⟩ := List.exists_cons_of_ne_nil (Nat.toDigits_ne_nil (b := 10) (n := n))
  have digit : c.isDigit = true := Nat.isDigit_of_mem_toDigits (b := 10) (n := n) (by decide)
    (by decide) (shape ▸ List.mem_cons_self)
  rw [shape, List.cons_append] at read
  rw [Nat.toList_repr, shape, List.cons_append, valuePart_of_isDigit digit, read]
  rfl

/-! ## Blocks -/

theorem valuePart_bracket : valuePart fuel depth (']' :: cs) = none := by
  cases fuel with
  | zero => rfl
  | succ fuel =>
      rw [valuePart, skipBlanks_cons rfl]
      rfl

theorem itemsPart_bracket : itemsPart fuel depth (']' :: cs) = none := by
  cases fuel with
  | zero => rfl
  | succ fuel => rw [itemsPart, valuePart_bracket]

theorem fieldsPart_brace {before : List (String × Json)} :
    fieldsPart fuel depth before ('}' :: cs) = none := by
  cases fuel with
  | zero => rfl
  | succ fuel =>
      rw [fieldsPart, skipBlanks_cons rfl]
      rfl

theorem valuePart_array {items : List Json}
    (read : itemsPart fuel depth cs = some (items, rest)) :
    valuePart (fuel + 1) (depth + 1) ('[' :: cs) = some (.array items, rest) := by
  rw [← itemsPart_congr (skipBlanks_skipBlanks cs)] at read
  rw [valuePart, skipBlanks_cons rfl]
  simp only
  -- A first item that begins with the closing bracket could not be read.
  split
  case h_1 zero => cases zero
  case h_2 shut =>
      rw [shut, itemsPart_bracket] at read
      cases read
  case h_3 same _ =>
      cases same
      rw [read]
      rfl

theorem valuePart_object {fields : List (String × Json)}
    (read : fieldsPart fuel depth [] cs = some (fields, rest)) :
    valuePart (fuel + 1) (depth + 1) ('{' :: cs) = some (.object fields, rest) := by
  rw [← fieldsPart_congr (skipBlanks_skipBlanks cs)] at read
  rw [valuePart, skipBlanks_cons rfl]
  simp only
  split
  case h_1 zero => cases zero
  case h_2 shut =>
      rw [shut, fieldsPart_brace] at read
      cases read
  case h_3 same _ =>
      cases same
      rw [read]
      rfl

/-- A text that reads as a field of an object. -/
def ReadsField (depth : Nat) (text : List Char) (field : String × Json) : Prop :=
  ∃ chars, text = '"' :: (field.1.toList.flatMap escape ++ '"' :: ':' :: ' ' :: chars) ∧
    Reads depth chars field.2

/-- The fields of an object in the order of their keys. -/
def sorted (before fields : List (String × Json)) : List (String × Json) :=
  fields.foldl (fun before field => insertField field.1 field.2 before) before

theorem insertField_of_lt {key : String} {value : Json} {fields : List (String × Json)}
    (before : ∀ field ∈ fields, field.1 < key) :
    insertField key value fields = fields ++ [(key, value)] := by
  induction fields with
  | nil => rfl
  | cons field fields ih =>
      obtain ⟨first, rest⟩ := List.forall_mem_cons.mp before
      have other : (key == field.1) = false := beq_false_of_ne (String.ne_of_lt first).symm
      rw [insertField, if_neg (String.lt_asymm first), other, if_neg Bool.false_ne_true, ih rest,
        List.cons_append]

theorem sorted_of_ordered {before fields : List (String × Json)}
    (ordered : ((before ++ fields).map Prod.fst).Pairwise (· < ·)) :
    sorted before fields = before ++ fields := by
  induction fields generalizing before with
  | nil => rw [List.append_nil, sorted, List.foldl_nil]
  | cons field fields ih =>
      have earlier : ∀ other ∈ before, other.1 < field.1 := by
        rw [List.map_append, List.pairwise_append] at ordered
        exact fun other member => ordered.2.2 _ (List.mem_map_of_mem member) _ List.mem_cons_self
      rw [← List.singleton_append, ← List.append_assoc] at ordered ⊢
      rw [← ih ordered, ← insertField_of_lt earlier]
      rfl

theorem fieldsPart_of_reads {before : List (String × Json)} {field : String × Json}
    {text after : List Char} (here : ReadsField depth text field) (enough : 2 * text.length < fuel)
    (ends : Ends rest) :
    (skipBlanks rest = '}' :: after → fieldsPart (fuel + 1) depth before (text ++ rest) =
      some (insertField field.1 field.2 before, after)) ∧
    (skipBlanks rest = ',' :: after → fieldsPart (fuel + 1) depth before (text ++ rest) =
      fieldsPart fuel depth (insertField field.1 field.2 before) after) := by
  obtain ⟨chars, rfl, reads⟩ := here
  have value : valuePart fuel depth (' ' :: (chars ++ rest)) = some (field.2, rest) := by
    simp only [List.length_append, List.length_cons] at enough
    rw [← reads fuel rest (by omega) ends]
    exact valuePart_congr rfl
  rw [List.cons_append, List.append_assoc, fieldsPart, skipBlanks_cons rfl]
  simp only [List.cons_append, stringBody_flatMap_escape, skipBlanks_cons (c := ':') rfl, value,
    String.ofList_toList]
  constructor
  · intro last
    simp only [last]
  · intro next
    simp only [next]

/-- The texts that come behind the first one of a block, each behind a comma and some blanks, and
then the end of the block. -/
def continued (gap ending : List Char) : List (List Char) → List Char
  | [] => ending
  | text :: texts => ',' :: (gap ++ (text ++ continued gap ending texts))

section

variable {gap close text : List Char} {texts : List (List Char)}

theorem continued_append (ending rest : List Char) :
    continued gap ending texts ++ rest = continued gap (ending ++ rest) texts := by
  induction texts with
  | nil => rfl
  | cons text texts ih =>
      rw [continued, continued, List.cons_append, List.append_assoc, List.append_assoc, ih]

theorem length_continued (ending : List Char) : (continued gap ending texts).length =
    (continued gap [] texts).length + ending.length := by
  rw [← List.length_append, continued_append, List.nil_append]

section

variable (gapBlank : ∀ c ∈ gap, isBlankChar c = true)
  (closeBlank : ∀ c ∈ close, isBlankChar c = true)

include closeBlank

theorem skipBlanks_close (shown : isBlankChar c = false) :
    skipBlanks (close ++ c :: rest) = c :: rest := by
  rw [skipBlanks_append closeBlank, skipBlanks_cons shown]

theorem ends_continued (stops : stopsNumber c = true) :
    Ends (continued gap (close ++ c :: rest) texts) := by
  cases texts with
  | cons text texts => exact ends_cons rfl
  | nil =>
      cases close with
      | nil => exact ends_cons stops
      | cons d close =>
          exact ends_cons (stopsNumber_of_isBlankChar (closeBlank d List.mem_cons_self))

include gapBlank

theorem itemsPart_continued {item : Json} {items : List Json}
    (here : Reads depth text item) (later : List.Forall₂ (Reads depth) texts items)
    (enough : 2 * (text.length + (continued gap [] texts).length) + 1 < fuel) :
    itemsPart fuel depth (text ++ continued gap (close ++ ']' :: rest) texts) =
      some (item :: items, rest) := by
  induction later generalizing text item fuel with
  | nil =>
      obtain ⟨fuel, rfl⟩ := Nat.exists_eq_add_one_of_ne_zero (Nat.ne_zero_of_lt enough)
      rw [itemsPart, here fuel _ (by omega) (ends_continued closeBlank rfl)]
      simp only [continued, skipBlanks_close closeBlank (c := ']') rfl]
  | @cons next nextItem texts items nextHere later ih =>
      obtain ⟨fuel, rfl⟩ := Nat.exists_eq_add_one_of_ne_zero (Nat.ne_zero_of_lt enough)
      rw [continued, List.length_cons, List.length_append, List.length_append] at enough
      have others := ih nextHere (show _ < fuel by omega)
      rw [← itemsPart_congr (skipBlanks_append gapBlank)] at others
      rw [itemsPart, here fuel _ (by omega) (ends_continued closeBlank rfl)]
      simp only [continued, skipBlanks_cons (c := ',') rfl, others, Option.map_some]

theorem fieldsPart_continued {before fields : List (String × Json)} {field : String × Json}
    (here : ReadsField depth text field) (later : List.Forall₂ (ReadsField depth) texts fields)
    (enough : 2 * (text.length + (continued gap [] texts).length) + 1 < fuel) :
    fieldsPart fuel depth before (text ++ continued gap (close ++ '}' :: rest) texts) =
      some (sorted before (field :: fields), rest) := by
  induction later generalizing text field before fuel with
  | nil =>
      obtain ⟨fuel, rfl⟩ := Nat.exists_eq_add_one_of_ne_zero (Nat.ne_zero_of_lt enough)
      exact (fieldsPart_of_reads here (by omega) (ends_continued closeBlank rfl)).1
        (skipBlanks_close closeBlank rfl)
  | @cons next nextField texts fields nextHere later ih =>
      obtain ⟨fuel, rfl⟩ := Nat.exists_eq_add_one_of_ne_zero (Nat.ne_zero_of_lt enough)
      rw [continued, List.length_cons, List.length_append, List.length_append] at enough
      have comma : skipBlanks (continued gap (close ++ '}' :: rest) (next :: texts)) =
          ',' :: (gap ++ (next ++ continued gap (close ++ '}' :: rest) texts)) :=
        skipBlanks_cons rfl
      rw [(fieldsPart_of_reads here (show _ < fuel by omega) (ends_continued closeBlank rfl)).2
        comma, fieldsPart_congr (skipBlanks_append gapBlank)]
      exact ih nextHere (by omega)

theorem reads_array {item : Json} {items : List Json}
    (here : Reads depth text item) (later : List.Forall₂ (Reads depth) texts items) :
    Reads (depth + 1) ('[' :: (gap ++ (text ++ continued gap (close ++ [']']) texts)))
      (.array (item :: items)) := by
  intro fuel rest enough _
  obtain ⟨fuel, rfl⟩ := Nat.exists_eq_add_one_of_ne_zero (Nat.ne_zero_of_lt enough)
  simp only [List.length_cons, List.length_append, length_continued (close ++ _)] at enough
  simp only [List.cons_append, List.append_assoc, continued_append, List.nil_append]
  apply valuePart_array
  rw [itemsPart_congr (skipBlanks_append gapBlank)]
  exact itemsPart_continued gapBlank closeBlank here later (by omega)

theorem reads_object {fields : List (String × Json)} {field : String × Json}
    (here : ReadsField depth text field) (later : List.Forall₂ (ReadsField depth) texts fields) :
    Reads (depth + 1) ('{' :: (gap ++ (text ++ continued gap (close ++ ['}']) texts)))
      (.object (sorted [] (field :: fields))) := by
  intro fuel rest enough _
  obtain ⟨fuel, rfl⟩ := Nat.exists_eq_add_one_of_ne_zero (Nat.ne_zero_of_lt enough)
  simp only [List.length_cons, List.length_append, length_continued (close ++ _)] at enough
  simp only [List.cons_append, List.append_assoc, continued_append, List.nil_append]
  apply valuePart_object
  rw [fieldsPart_congr (skipBlanks_append gapBlank)]
  exact fieldsPart_continued gapBlank closeBlank here later (by omega)

end

end

/-! ## Printed values -/

theorem prettyItems_eq_map (indent : Nat) (items : List Json) :
    prettyItems indent items = items.map (pretty indent) := by
  induction items with
  | nil => rfl
  | cons item items ih => rw [prettyItems, ih, List.map_cons]

theorem prettyFields_eq_map (indent : Nat) (fields : List (String × Json)) :
    prettyFields indent fields =
      fields.map fun field => quoted field.1 ++ ": " ++ field.2.pretty indent := by
  induction fields with
  | nil => rfl
  | cons field fields ih => rw [prettyFields, ih, List.map_cons]

def margin (indent : Nat) : List Char := '\n' :: List.replicate indent ' '

theorem isBlankChar_of_mem_margin {indent : Nat} (member : c ∈ margin indent) :
    isBlankChar c = true := by
  rcases List.mem_cons.mp member with rfl | inside
  · rfl
  · rw [List.eq_of_mem_replicate inside]
    rfl

theorem toList_intercalate_rows (step first : String) (items : List String) :
    (",\n".intercalate ((first :: items).map fun item => step ++ item)).toList =
      step.toList ++ (first.toList ++
        continued ('\n' :: step.toList) [] (items.map String.toList)) := by
  induction items generalizing first with
  | nil => simp [continued]
  | cons next items ih =>
      have later := ih next
      rw [List.map_cons] at later
      rw [List.map_cons, List.map_cons, String.intercalate_cons_cons, String.toList_append, later]
      simp [continued]

theorem toList_block {left right : String} {b e : Char} (opens : left.toList = [b])
    (closes : right.toList = [e]) (indent : Nat) (first : String) (items : List String) :
    (block indent left right (first :: items)).toList =
      b :: (margin (indent + 2) ++ (first.toList ++
        continued (margin (indent + 2)) (margin indent ++ [e]) (items.map String.toList))) := by
  have step : '\n' :: (String.ofList (List.replicate indent ' ') ++ "  ").toList =
      margin (indent + 2) := by
    simp [margin, List.replicate_add]
  have rows := toList_intercalate_rows (.ofList (List.replicate indent ' ') ++ "  ") first items
  rw [step] at rows
  simp only [block, String.toList_append, rows, opens, closes]
  rw [← step, ← List.nil_append (margin indent ++ [e]), ← continued_append]
  simp [margin]

/-- A value that reads as another one wherever it is printed. -/
def Readable (depth : Nat) (printed read : Json) : Prop :=
  ∀ indent, Reads depth (printed.pretty indent).toList read

section

variable {items found : List Json} {fields foundFields : List (String × Json)}

theorem readable_string (text : String) : Readable depth (.string text) (.string text) :=
  fun _ => reads_quoted text

theorem readable_integer {n : Nat} (fits : n < wordLimit) :
    Readable depth (.number (.integer n)) (.number (.integer n)) :=
  fun _ => reads_repr fits

theorem readable_array (readable : List.Forall₂ (Readable depth) items found) :
    Readable (depth + 1) (.array items) (.array found) := by
  intro indent
  cases readable with
  | nil =>
      intro fuel rest enough ends
      obtain ⟨fuel, rfl⟩ := Nat.exists_eq_add_one_of_ne_zero (Nat.ne_zero_of_lt enough)
      have shape : (pretty indent (.array [])).toList ++ rest = '[' :: ']' :: rest := by
        simp [pretty, prettyItems, block]
      rw [shape, valuePart, skipBlanks_cons rfl]
      simp only [skipBlanks_cons (c := ']') rfl]
  | @cons item foundItem items found here later =>
      have texts : List.Forall₂ (Reads depth)
          ((items.map (pretty (indent + 2))).map String.toList) found := by
        rw [List.map_map, List.forall₂_map_left_iff]
        exact later.imp fun _ _ readable => readable (indent + 2)
      rw [pretty, prettyItems_eq_map, List.map_cons,
        toList_block (b := '[') (e := ']') (by simp) (by simp)]
      exact reads_array (fun _ => isBlankChar_of_mem_margin) (fun _ => isBlankChar_of_mem_margin)
        (here (indent + 2)) texts

theorem readable_object
    (readable : List.Forall₂ (fun field foundField => field.1 = foundField.1 ∧
      Readable depth field.2 foundField.2) fields foundFields) :
    Readable (depth + 1) (.object fields) (.object (sorted [] foundFields)) := by
  intro indent
  cases readable with
  | nil =>
      intro fuel rest enough ends
      obtain ⟨fuel, rfl⟩ := Nat.exists_eq_add_one_of_ne_zero (Nat.ne_zero_of_lt enough)
      have shape : (pretty indent (.object [])).toList ++ rest = '{' :: '}' :: rest := by
        simp [pretty, prettyFields, block]
      rw [shape, valuePart, skipBlanks_cons rfl]
      simp only [skipBlanks_cons (c := '}') rfl]
      rfl
  | @cons field foundField fields found here later =>
      have written {field foundField : String × Json} (same : field.1 = foundField.1 ∧
          Readable depth field.2 foundField.2) : ReadsField depth
            (quoted field.1 ++ ": " ++ field.2.pretty (indent + 2)).toList foundField :=
        ⟨_, by simp [quoted, same.1], same.2 (indent + 2)⟩
      have texts : List.Forall₂ (ReadsField depth) ((fields.map fun field =>
          quoted field.1 ++ ": " ++ field.2.pretty (indent + 2)).map String.toList) found := by
        rw [List.map_map, List.forall₂_map_left_iff]
        exact later.imp fun _ _ => written
      rw [pretty, prettyFields_eq_map, List.map_cons,
        toList_block (b := '{') (e := '}') (by simp) (by simp)]
      exact reads_object (fun _ => isBlankChar_of_mem_margin) (fun _ => isBlankChar_of_mem_margin)
        (written here) texts

/-- An object whose fields are in order reads as it is if its values do. -/
theorem readable_object_self (ordered : (fields.map Prod.fst).Pairwise (· < ·))
    (values : ∀ field ∈ fields, Readable depth field.2 field.2) :
    Readable (depth + 1) (.object fields) (.object fields) := by
  have read := readable_object (List.forall₂_same.mpr fun field member =>
    ⟨rfl, values field member⟩)
  have order : sorted [] fields = fields := sorted_of_ordered ordered
  rwa [order] at read

theorem ofText?_pretty {printed read : Json} (readable : Readable 127 printed read)
    (indent : Nat) : ofText? (printed.pretty indent ++ "\n") = some read := by
  have shape : (printed.pretty indent ++ "\n").toList = (printed.pretty indent).toList ++ ['\n'] :=
    String.toList_append
  have found := readable indent (2 * ((printed.pretty indent).toList ++ ['\n']).length + 2) ['\n']
    (by rw [List.length_append]; omega) (ends_cons rfl)
  simp only [ofText?, shape, found]
  rfl

end

end Json

end SJava
