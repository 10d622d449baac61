import HeapRetention.Json.Reader
import HeapRetention.Json.Value
import Mathlib.Data.List.DropRight

/-! What a value looks like in a JSON text: its pieces in order, with blanks anywhere between them. Both
written forms are such spellings. -/
namespace HeapRetention.Json
variable {cs ds rest : List Char} {c : Char} {n : Nat} {v : Value} {vs : List Value}
  {fs : List (String × Value)} {isFirst : Bool}

mutual

/-- A text starts with a value, in one way of writing it, and goes on with `rest`. -/
inductive Value.Spells : Value → List Char → List Char → Prop where
  | null {cs rest : List Char} (h : skipBlanks cs = 'n' :: 'u' :: 'l' :: 'l' :: rest) :
      Value.Spells .null cs rest
  | boolean {cs rest : List Char} {b : Bool} (h : skipBlanks cs = writeBoolean b rest) :
      Value.Spells (.boolean b) cs rest
  | number {cs rest : List Char} {n : Nat} (h : skipBlanks cs = writeNumber n rest) :
      Value.Spells (.number n) cs rest
  | string {cs rest : List Char} {s : String} (h : skipBlanks cs = writeString s rest) :
      Value.Spells (.string s) cs rest
  | array {cs inner rest : List Char} {vs : List Value} (h : skipBlanks cs = '[' :: inner)
      (hvs : SpellsItems true vs inner rest) : Value.Spells (.array vs) cs rest
  | object {cs inner rest : List Char} {fs : List (String × Value)} (h : skipBlanks cs = '\x7b' :: inner)
      (hfs : SpellsFields true fs inner rest) : Value.Spells (.object fs) cs rest

/-- The items of an array up to its closing bracket; there is no comma before the first one. -/
inductive SpellsItems : Bool → List Value → List Char → List Char → Prop where
  | nil {isFirst : Bool} {cs rest : List Char} (h : skipBlanks cs = ']' :: rest) :
      SpellsItems isFirst [] cs rest
  | first {cs next rest : List Char} {v : Value} {vs : List Value} (hv : Value.Spells v cs next)
      (hvs : SpellsItems false vs next rest) : SpellsItems true (v :: vs) cs rest
  | next {cs inner next rest : List Char} {v : Value} {vs : List Value} (h : skipBlanks cs = ',' :: inner)
      (hv : Value.Spells v inner next) (hvs : SpellsItems false vs next rest) :
      SpellsItems false (v :: vs) cs rest

/-- The fields of an object up to its closing brace; there is no comma before the first one. -/
inductive SpellsFields : Bool → List (String × Value) → List Char → List Char → Prop where
  | nil {isFirst : Bool} {cs rest : List Char} (h : skipBlanks cs = '\x7d' :: rest) :
      SpellsFields isFirst [] cs rest
  | first {cs colon inner next rest : List Char} {k : String} {v : Value} {fs : List (String × Value)}
      (hk : skipBlanks cs = writeString k colon) (hcolon : skipBlanks colon = ':' :: inner)
      (hv : Value.Spells v inner next) (hfs : SpellsFields false fs next rest) :
      SpellsFields true ((k, v) :: fs) cs rest
  | next {cs key colon inner next rest : List Char} {k : String} {v : Value} {fs : List (String × Value)}
      (h : skipBlanks cs = ',' :: key) (hk : skipBlanks key = writeString k colon)
      (hcolon : skipBlanks colon = ':' :: inner) (hv : Value.Spells v inner next)
      (hfs : SpellsFields false fs next rest) : SpellsFields false ((k, v) :: fs) cs rest

end

theorem skipBlanks_cons_of_not (h : isBlank c = false) : skipBlanks (c :: cs) = c :: cs :=
  List.dropWhile_cons_of_neg (Bool.not_eq_true _ ▸ h)

theorem skipBlanks_cons (h : isBlank c = true) : skipBlanks (c :: cs) = skipBlanks cs :=
  List.dropWhile_cons_of_pos h

theorem skipBlanks_skipBlanks (cs : List Char) : skipBlanks (skipBlanks cs) = skipBlanks cs :=
  List.dropWhile_idempotent _ _

theorem skipBlanks_newLine (level : Nat) (cs : List Char) : skipBlanks (newLine level cs) = skipBlanks cs := by
  unfold newLine
  rw [skipBlanks_cons rfl]
  apply List.dropWhile_append_of_pos
  intro c hc
  rw [List.eq_of_mem_replicate hc]
  rfl

theorem length_skipBlanks_le (cs : List Char) : (skipBlanks cs).length ≤ cs.length :=
  (List.dropWhile_sublist _).length_le

/-- Character and digit tests of the library agree. -/
theorem isDigit_eq (c : Char) : isDigit c = c.isDigit := by
  rw [Bool.eq_iff_iff, Char.isDigit_iff_toNat]
  unfold isDigit
  rw [Bool.and_eq_true, decide_eq_true_iff, decide_eq_true_iff]
  rfl

theorem isDigit_of_mem_toDigits (h : c ∈ Nat.toDigits 10 n) : isDigit c = true := by
  rw [isDigit_eq]
  exact Nat.isDigit_of_mem_toDigits (by decide) (by decide) h

/-- What a digit is not. -/
theorem not_of_isDigit (h : isDigit c = true) {d : Char} (hd : isDigit d = false) : c ≠ d := by
  rintro rfl
  rw [h] at hd
  cases hd

theorem exists_writeNumber (n : Nat) (rest : List Char) :
    ∃ c cs, writeNumber n rest = c :: cs ∧ isDigit c = true := by
  unfold writeNumber
  cases h : Nat.toDigits 10 n with
  | nil => exact absurd h Nat.toDigits_ne_nil
  | cons c ds => exact ⟨c, ds ++ rest, rfl, isDigit_of_mem_toDigits (h ▸ List.mem_cons_self)⟩

theorem skipBlanks_writeNumber (n : Nat) (rest : List Char) :
    skipBlanks (writeNumber n rest) = writeNumber n rest := by
  obtain ⟨c, cs, hcs, hc⟩ := exists_writeNumber n rest
  rw [hcs]
  have hspace : c ≠ ' ' := not_of_isDigit hc rfl
  have hline : c ≠ '\n' := not_of_isDigit hc rfl
  have htab : c ≠ '\t' := not_of_isDigit hc rfl
  have hreturn : c ≠ '\r' := not_of_isDigit hc rfl
  apply skipBlanks_cons_of_not
  unfold isBlank
  simp only [Bool.or_eq_false_iff, beq_eq_false_iff_ne]
  exact ⟨⟨⟨hspace, hline⟩, htab⟩, hreturn⟩

theorem skipBlanks_writeBoolean (b : Bool) (rest : List Char) :
    skipBlanks (writeBoolean b rest) = writeBoolean b rest := by
  cases b with
  | false => rfl
  | true => rfl

namespace Value

/-- Blanks in front of a value do not matter. -/
theorem Spells.congr (h : v.Spells cs rest) (hsame : skipBlanks ds = skipBlanks cs) : v.Spells ds rest := by
  cases h with
  | null h => exact .null (hsame.trans h)
  | boolean h => exact .boolean (hsame.trans h)
  | number h => exact .number (hsame.trans h)
  | string h => exact .string (hsame.trans h)
  | array h hvs => exact .array (hsame.trans h) hvs
  | object h hfs => exact .object (hsame.trans h) hfs

mutual

theorem compact_spells : ∀ (v : Value) (rest : List Char), v.Spells (v.compact rest) rest
  | .null, _ => .null (skipBlanks_cons_of_not rfl)
  | .boolean b, rest => .boolean (skipBlanks_writeBoolean b rest)
  | .number n, rest => .number (skipBlanks_writeNumber n rest)
  | .string _, _ => .string (skipBlanks_cons_of_not rfl)
  | .array [], _ => .array (skipBlanks_cons_of_not rfl) (.nil (skipBlanks_cons_of_not rfl))
  | .array (v :: vs), rest =>
    .array (skipBlanks_cons_of_not rfl) (.first (compact_spells v _) (compactItems_spells vs rest))
  | .object [], _ => .object (skipBlanks_cons_of_not rfl) (.nil (skipBlanks_cons_of_not rfl))
  | .object ((_, v) :: fs), rest =>
    .object (skipBlanks_cons_of_not rfl) (.first (skipBlanks_cons_of_not rfl) (skipBlanks_cons_of_not rfl)
      (compact_spells v _) (compactFields_spells fs rest))

theorem compactItems_spells : ∀ (vs : List Value) (rest : List Char),
    SpellsItems false vs (compactItems vs rest) rest
  | [], _ => .nil (skipBlanks_cons_of_not rfl)
  | v :: vs, rest =>
    .next (skipBlanks_cons_of_not rfl) (compact_spells v _) (compactItems_spells vs rest)

theorem compactFields_spells : ∀ (fs : List (String × Value)) (rest : List Char),
    SpellsFields false fs (compactFields fs rest) rest
  | [], _ => .nil (skipBlanks_cons_of_not rfl)
  | (_, v) :: fs, rest =>
    .next (skipBlanks_cons_of_not rfl) (skipBlanks_cons_of_not rfl) (skipBlanks_cons_of_not rfl)
      (compact_spells v _) (compactFields_spells fs rest)

end

mutual

theorem prettyAt_spells : ∀ (level : Nat) (v : Value) (rest : List Char), v.Spells (v.prettyAt level rest) rest
  | _, .null, _ => .null (skipBlanks_cons_of_not rfl)
  | _, .boolean b, rest => .boolean (skipBlanks_writeBoolean b rest)
  | _, .number n, rest => .number (skipBlanks_writeNumber n rest)
  | _, .string _, _ => .string (skipBlanks_cons_of_not rfl)
  | _, .array [], _ => .array (skipBlanks_cons_of_not rfl) (.nil (skipBlanks_cons_of_not rfl))
  | level, .array (v :: vs), rest =>
    .array (skipBlanks_cons_of_not rfl) (.first ((prettyAt_spells (level + 1) v _).congr (skipBlanks_newLine _ _))
      (prettyItems_spells level vs rest))
  | _, .object [], _ => .object (skipBlanks_cons_of_not rfl) (.nil (skipBlanks_cons_of_not rfl))
  | level, .object ((_, v) :: fs), rest =>
    .object (skipBlanks_cons_of_not rfl) (.first ((skipBlanks_newLine _ _).trans (skipBlanks_cons_of_not rfl))
      (skipBlanks_cons_of_not rfl) ((prettyAt_spells (level + 1) v _).congr (skipBlanks_cons rfl))
      (prettyFields_spells level fs rest))

theorem prettyItems_spells : ∀ (level : Nat) (vs : List Value) (rest : List Char),
    SpellsItems false vs (prettyItems level vs rest) rest
  | level, [], _ => .nil ((skipBlanks_newLine level _).trans (skipBlanks_cons_of_not rfl))
  | level, v :: vs, rest =>
    .next (skipBlanks_cons_of_not rfl) ((prettyAt_spells (level + 1) v _).congr (skipBlanks_newLine _ _))
      (prettyItems_spells level vs rest)

theorem prettyFields_spells : ∀ (level : Nat) (fs : List (String × Value)) (rest : List Char),
    SpellsFields false fs (prettyFields level fs rest) rest
  | level, [], _ => .nil ((skipBlanks_newLine level _).trans (skipBlanks_cons_of_not rfl))
  | level, (_, v) :: fs, rest =>
    .next (skipBlanks_cons_of_not rfl) ((skipBlanks_newLine _ _).trans (skipBlanks_cons_of_not rfl))
      (skipBlanks_cons_of_not rfl) ((prettyAt_spells (level + 1) v _).congr (skipBlanks_cons rfl))
      (prettyFields_spells level fs rest)

end

end Value

theorem length_le_of_skipBlanks (h : skipBlanks cs = ds) : ds.length ≤ cs.length :=
  h ▸ length_skipBlanks_le cs

theorem lt_length_writeNumber (n : Nat) (rest : List Char) : rest.length < (writeNumber n rest).length := by
  unfold writeNumber
  rw [List.length_append]
  exact Nat.lt_add_of_pos_left Nat.length_toDigits_pos

theorem lt_length_writeBoolean (b : Bool) (rest : List Char) : rest.length < (writeBoolean b rest).length := by
  unfold writeBoolean
  rw [List.length_append]
  apply Nat.lt_add_of_pos_left
  split
  · exact Nat.succ_pos _
  · exact Nat.succ_pos _

theorem lt_length_writeString (s : String) (rest : List Char) : rest.length < (writeString s rest).length := by
  have hescaped : ∀ (chars tail : List Char),
      tail.length ≤ (chars.foldr (fun c tail => escapeChar c ++ tail) tail).length := by
    intro chars tail
    induction chars with
    | nil => exact Nat.le_refl _
    | cons c chars ih =>
      rw [List.foldr_cons, List.length_append]
      exact Nat.le_add_left_of_le ih
  calc rest.length
    _ < ('"' :: rest).length := Nat.lt_succ_self _
    _ ≤ (s.toList.foldr (fun c tail => escapeChar c ++ tail) ('"' :: rest)).length := hescaped _ _
    _ ≤ (writeString s rest).length := Nat.le_succ _

mutual

/-- A value takes at least one character. -/
theorem Value.Spells.length_lt : ∀ {v : Value} {cs rest : List Char}, v.Spells cs rest →
    rest.length < cs.length
  | _, _, rest, .null h => by
    have hle := length_le_of_skipBlanks h
    simp only [List.length_cons] at hle
    omega
  | _, _, rest, .boolean h => (lt_length_writeBoolean _ rest).trans_le (length_le_of_skipBlanks h)
  | _, _, rest, .number h => (lt_length_writeNumber _ rest).trans_le (length_le_of_skipBlanks h)
  | _, _, rest, .string h => (lt_length_writeString _ rest).trans_le (length_le_of_skipBlanks h)
  | _, _, _, .array h hvs => by
    have hle := length_le_of_skipBlanks h
    have hitems := hvs.length_lt
    rw [List.length_cons] at hle
    omega
  | _, _, _, .object h hfs => by
    have hle := length_le_of_skipBlanks h
    have hfields := hfs.length_lt
    rw [List.length_cons] at hle
    omega

theorem SpellsItems.length_lt : ∀ {isFirst : Bool} {vs : List Value} {cs rest : List Char},
    SpellsItems isFirst vs cs rest → rest.length + vs.length < cs.length
  | _, _, _, _, .nil h => length_le_of_skipBlanks h
  | _, _, _, _, .first hv hvs => by
    have hvalue := hv.length_lt
    have hitems := hvs.length_lt
    rw [List.length_cons]
    omega
  | _, _, _, _, .next h hv hvs => by
    have hle := length_le_of_skipBlanks h
    have hvalue := hv.length_lt
    have hitems := hvs.length_lt
    rw [List.length_cons] at hle ⊢
    omega

theorem SpellsFields.length_lt : ∀ {isFirst : Bool} {fs : List (String × Value)} {cs rest : List Char},
    SpellsFields isFirst fs cs rest → rest.length + fs.length < cs.length
  | _, _, _, _, .nil h => length_le_of_skipBlanks h
  | _, _, _, _, .first hk hcolon hv hfs => by
    have hkey := (lt_length_writeString _ _).trans_le (length_le_of_skipBlanks hk)
    have hle := length_le_of_skipBlanks hcolon
    have hvalue := hv.length_lt
    have hfields := hfs.length_lt
    rw [List.length_cons] at hle ⊢
    omega
  | _, _, _, _, .next h hk hcolon hv hfs => by
    have hcomma := length_le_of_skipBlanks h
    have hkey := (lt_length_writeString _ _).trans_le (length_le_of_skipBlanks hk)
    have hle := length_le_of_skipBlanks hcolon
    have hvalue := hv.length_lt
    have hfields := hfs.length_lt
    rw [List.length_cons] at hcomma hle ⊢
    omega

end

/-- No value starts with a closing bracket. -/
theorem Value.Spells.exists_start (h : v.Spells cs rest) : ∃ c ds, skipBlanks cs = c :: ds ∧ c ≠ ']' := by
  cases h with
  | null h => exact ⟨_, _, h, by decide⟩
  | @boolean _ _ b h =>
    cases b with
    | false => exact ⟨_, _, h, by decide⟩
    | true => exact ⟨_, _, h, by decide⟩
  | @number _ _ n h =>
    obtain ⟨c, ds, hn, hc⟩ := exists_writeNumber n rest
    exact ⟨c, ds, h.trans hn, not_of_isDigit hc rfl⟩
  | string h => exact ⟨_, _, h, by decide⟩
  | array h _ => exact ⟨_, _, h, by decide⟩
  | object h _ => exact ⟨_, _, h, by decide⟩

/-- What may follow a number without becoming part of it. -/
def Stops (cs : List Char) : Prop :=
  ∀ c ∈ cs.head?, isDigit c = false ∧ c ≠ '.' ∧ c ≠ 'e' ∧ c ≠ 'E'

theorem stops_of_skipBlanks (h : skipBlanks cs = c :: ds) (hc : c ∈ [',', ']', '\x7d']) : Stops cs := by
  cases cs with
  | nil => cases h
  | cons d cs =>
    intro e he
    cases he
    by_cases hd : isBlank d = true
    · unfold isBlank at hd
      simp only [Bool.or_eq_true, beq_iff_eq] at hd
      rcases hd with ((rfl | rfl) | rfl) | rfl <;> decide
    · rw [skipBlanks_cons_of_not (Bool.not_eq_true _ ▸ hd)] at h
      cases h
      simp only [List.mem_cons, List.not_mem_nil, or_false] at hc
      rcases hc with rfl | rfl | rfl <;> decide

/-- A member is followed by a comma or by the closing bracket. -/
theorem SpellsItems.stops (h : SpellsItems false vs cs rest) : Stops cs := by
  cases h with
  | nil h => exact stops_of_skipBlanks h (by decide)
  | next h _ _ => exact stops_of_skipBlanks h (by decide)

theorem SpellsFields.stops (h : SpellsFields false fs cs rest) : Stops cs := by
  cases h with
  | nil h => exact stops_of_skipBlanks h (by decide)
  | next h _ _ _ _ => exact stops_of_skipBlanks h (by decide)

end HeapRetention.Json
