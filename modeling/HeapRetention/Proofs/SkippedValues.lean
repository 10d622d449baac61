import HeapRetention.Proofs.RecordText

/-! Values of any kind in a JSON text. Where only the extent of a value matters it is skipped, with its open
brackets on a stack; however deep it is, the skipping comes to its end. -/
namespace HeapRetention.Json

/-- Some digits, and nothing else. -/
def Digits (ds : List Char) : Prop :=
  ds ≠ [] ∧ ∀ d ∈ ds, isDigit d = true

/-- A number as JSON has it: no zero leads other digits, and every part has a digit. -/
structure Literal extends Numeral where
  whole_digits : Digits whole
  whole_short : whole.head? = some '0' → whole = ['0']
  fraction_digits : ∀ ds ∈ fraction?, Digits ds
  exponent_digits : ∀ e ∈ exponent?, Digits e.2

/-- The number as the library writes it. -/
def Literal.ofNat (n : Nat) : Literal where
  negative := false
  whole := Nat.toDigits 10 n
  fraction? := none
  exponent? := none
  whole_digits := ⟨Nat.toDigits_ne_nil, fun _ hd => isDigit_of_mem_toDigits hd⟩
  whole_short := fun hd => by
    by_cases hzero : n = 0
    · rw [hzero]
      rfl
    · obtain ⟨ds, hds⟩ := List.head?_eq_some_iff.mp hd
      exact absurd rfl (head_toDigits_ne_zero (Nat.pos_of_ne_zero hzero) hds)
  fraction_digits := fun _ hds => nomatch hds
  exponent_digits := fun _ he => nomatch he

/-- A JSON value of any kind. -/
inductive Tree where
  | null
  | boolean (b : Bool)
  | number (n : Literal)
  | string (s : String)
  | array (items : List Tree)
  | object (members : List (String × Tree))

def writeExponent : Option (Bool × List Char) → List Char → List Char
  | none, rest => rest
  | some (positive, ds), rest => 'e' :: (if positive then '+' else '-') :: (ds ++ rest)

def writeFraction : Option (List Char) → List Char → List Char
  | none, rest => rest
  | some ds, rest => '.' :: (ds ++ rest)

/-- The sign, the digits, the fraction and the exponent of a number. -/
def Numeral.write (n : Numeral) (rest : List Char) : List Char :=
  (if n.negative then ['-'] else []) ++ (n.whole ++ writeFraction n.fraction? (writeExponent n.exponent? rest))

mutual

/-- A text starts with a value of any kind and goes on with `rest`; there may be blanks between its pieces. -/
inductive Tree.Spells : Tree → List Char → List Char → Prop where
  | null {cs rest : List Char} (h : skipBlanks cs = 'n' :: 'u' :: 'l' :: 'l' :: rest) : Tree.Spells .null cs rest
  | boolean {cs rest : List Char} {b : Bool} (h : skipBlanks cs = writeBoolean b rest) :
      Tree.Spells (.boolean b) cs rest
  | number {cs rest : List Char} {n : Literal} (h : skipBlanks cs = n.write rest) : Tree.Spells (.number n) cs rest
  | string {cs rest : List Char} {s : String} (h : skipBlanks cs = writeString s rest) :
      Tree.Spells (.string s) cs rest
  | array {cs inner rest : List Char} {ts : List Tree} (h : skipBlanks cs = '[' :: inner)
      (hts : SpellsTrees true ts inner rest) : Tree.Spells (.array ts) cs rest
  | object {cs inner rest : List Char} {ms : List (String × Tree)} (h : skipBlanks cs = '\x7b' :: inner)
      (hms : SpellsMembers true ms inner rest) : Tree.Spells (.object ms) cs rest

/-- The items of an array up to its closing bracket; there is no comma before the first one. -/
inductive SpellsTrees : Bool → List Tree → List Char → List Char → Prop where
  | nil {isFirst : Bool} {cs rest : List Char} (h : skipBlanks cs = ']' :: rest) : SpellsTrees isFirst [] cs rest
  | first {cs next rest : List Char} {t : Tree} {ts : List Tree} (ht : Tree.Spells t cs next)
      (hts : SpellsTrees false ts next rest) : SpellsTrees true (t :: ts) cs rest
  | next {cs inner next rest : List Char} {t : Tree} {ts : List Tree} (h : skipBlanks cs = ',' :: inner)
      (ht : Tree.Spells t inner next) (hts : SpellsTrees false ts next rest) : SpellsTrees false (t :: ts) cs rest

/-- The members of an object up to its closing brace; there is no comma before the first one. -/
inductive SpellsMembers : Bool → List (String × Tree) → List Char → List Char → Prop where
  | nil {isFirst : Bool} {cs rest : List Char} (h : skipBlanks cs = '\x7d' :: rest) :
      SpellsMembers isFirst [] cs rest
  | first {cs colon inner next rest : List Char} {k : String} {t : Tree} {ms : List (String × Tree)}
      (hk : skipBlanks cs = writeString k colon) (hcolon : skipBlanks colon = ':' :: inner)
      (ht : Tree.Spells t inner next) (hms : SpellsMembers false ms next rest) :
      SpellsMembers true ((k, t) :: ms) cs rest
  | next {cs key colon inner next rest : List Char} {k : String} {t : Tree} {ms : List (String × Tree)}
      (h : skipBlanks cs = ',' :: key) (hk : skipBlanks key = writeString k colon)
      (hcolon : skipBlanks colon = ':' :: inner) (ht : Tree.Spells t inner next)
      (hms : SpellsMembers false ms next rest) : SpellsMembers false ((k, t) :: ms) cs rest

end

variable {cs ds rest inner next body : List Char} {c : Char} {n : Literal} {t : Tree} {ts : List Tree}
  {ms : List (String × Tree)} {isFirst : Bool}

/-! ### Numbers -/

theorem Literal.exists_write (n : Literal) (rest : List Char) :
    ∃ c cs, n.write rest = c :: cs ∧ (c = '-' ∨ isDigit c = true) := by
  unfold Numeral.write
  cases hsign : n.negative with
  | true => exact ⟨'-', _, rfl, Or.inl rfl⟩
  | false =>
    obtain ⟨hne, hdigits⟩ := n.whole_digits
    cases hwhole : n.whole with
    | nil => exact absurd hwhole hne
    | cons d ds => exact ⟨d, _, rfl, Or.inr (hdigits d (hwhole ▸ List.mem_cons_self))⟩

/-- The part behind the digits starts with something else. -/
theorem not_isDigit_writeExponent (e? : Option (Bool × List Char)) (h : Stops rest) :
    ∀ c ∈ (writeExponent e? rest).head?, isDigit c = false ∧ c ≠ '.' := by
  cases e? with
  | none => exact fun c hc => ⟨(h c hc).1, (h c hc).2.1⟩
  | some e =>
    rintro c ⟨⟩
    decide

theorem not_isDigit_writeFraction (f? : Option (List Char)) (h : ∀ c ∈ rest.head?, isDigit c = false ∧ c ≠ '.') :
    ∀ c ∈ (writeFraction f? rest).head?, isDigit c = false := by
  cases f? with
  | none => exact fun c hc => (h c hc).1
  | some ds =>
    rintro c ⟨⟩
    decide

theorem readExponent?_write {e? : Option (Bool × List Char)} (he : ∀ e ∈ e?, Digits e.2) (h : Stops rest) :
    readExponent? (writeExponent e? rest) = .ok (e?, rest) := by
  cases e? with
  | none => exact readExponent?_of_stops h
  | some e =>
    obtain ⟨positive, ds⟩ := e
    obtain ⟨hne, hdigits⟩ : Digits ds := he _ rfl
    cases ds with
    | nil => exact absurd rfl hne
    | cons d ds =>
      obtain ⟨htake, hdrop⟩ := span_digits (fun c hc => (h c hc).1) hdigits
      have hd : isDigit d = true := hdigits d List.mem_cons_self
      have hread : readExponent ((if positive then '+' else '-') :: (d :: ds ++ rest)) =
          .ok ((positive, d :: ds), rest) := by
        cases positive with
        | false => exact (if_pos hd).trans (congrArg₂ (fun ds rest => Except.ok ((false, ds), rest)) htake hdrop)
        | true => exact (if_pos hd).trans (congrArg₂ (fun ds rest => Except.ok ((true, ds), rest)) htake hdrop)
      unfold readExponent? writeExponent
      dsimp only
      rw [if_pos (Or.inl rfl), hread]

theorem readFraction?_write {f? : Option (List Char)} (hf : ∀ ds ∈ f?, Digits ds)
    (h : ∀ c ∈ rest.head?, isDigit c = false ∧ c ≠ '.') :
    readFraction? (writeFraction f? rest) = .ok (f?, rest) := by
  cases f? with
  | none =>
    unfold writeFraction readFraction?
    dsimp only
    split
    · exact absurd rfl (h '.' rfl).2
    · exact absurd rfl (h '.' rfl).2
    · rfl
  | some ds =>
    obtain ⟨hne, hdigits⟩ := hf _ rfl
    cases ds with
    | nil => exact absurd rfl hne
    | cons d ds =>
      obtain ⟨htake, hdrop⟩ := span_digits (fun c hc => (h c hc).1) hdigits
      have hd : isDigit d = true := hdigits d List.mem_cons_self
      exact (if_pos hd).trans (congrArg₂ (fun ds rest => Except.ok (some ds, rest)) htake hdrop)

/-- Every number is read up to its end. -/
theorem Literal.readNumeral_write (n : Literal) (h : Stops rest) :
    readNumeral (n.write rest) = .ok (n.toNumeral, rest) := by
  obtain ⟨⟨negative, whole, fraction?, exponent?⟩, hwhole, hshort, hfraction, hexponent⟩ := n
  obtain ⟨hne, hdigits⟩ : Digits whole := hwhole
  have hbehind := not_isDigit_writeExponent exponent? h
  cases whole with
  | nil => exact absurd rfl hne
  | cons d ds =>
    have hzero : d = '0' → ds = [] := by
      rintro rfl
      exact (List.cons.inj (hshort rfl)).2
    have hwhole := readWhole_digits hdigits hzero (not_isDigit_writeFraction fraction? hbehind)
    have hunsigned : d ≠ '-' := not_of_isDigit (hdigits d List.mem_cons_self) rfl
    unfold readNumeral
    split
    next sign cs heq =>
      obtain ⟨rfl, rfl⟩ : negative = sign ∧
          d :: ds ++ writeFraction fraction? (writeExponent exponent? rest) = cs := by
        cases negative with
        | true => exact Prod.mk.inj heq
        | false =>
          split at heq
          · next hsign => exact absurd (List.cons.inj hsign).1 hunsigned
          · exact Prod.mk.inj heq
      rw [bind_of_ok hwhole]
      dsimp only
      rw [bind_of_ok (readFraction?_write hfraction hbehind)]
      dsimp only
      rw [bind_of_ok (readExponent?_write hexponent h)]
      rfl

/-! ### Strings -/

/-- What the scan of a string has to find, a skipped string has as well. -/
def StringScan.skipped : StringScan → SkipScan
  | .plain => .plain
  | .escape => .escape
  | .hex _ taken value? => .hex taken value?.isSome
  | .partnerEscape _ => .plain
  | .partnerLetter _ => .escape

theorem isSome_pushHex (value? : Option Nat) (c : Char) :
    (pushHex value? c).isSome = (value?.isSome && (hexValue? c).isSome) := by
  unfold pushHex
  cases value? with
  | none => rfl
  | some v =>
    cases hexValue? c with
    | none => rfl
    | some d => rfl

theorem closeHex_skipped {high? : Option Nat} {value : Nat} {state : StringScan} {ch? : Option Char}
    (h : closeHex high? value = .ok (state, ch?)) : state.skipped = .plain := by
  unfold closeHex at h
  cases high? with
  | none =>
    dsimp only at h
    split at h
    · cases h
    · split at h <;> cases h <;> rfl
  | some high =>
    dsimp only at h
    split at h
    · cases h
      rfl
    · cases h

/-- Every string that can be read can be skipped. -/
theorem skipString_of_scanString {state : StringScan} {done chars : List Char}
    (h : scanString state done cs = .ok (chars, rest)) : skipString state.skipped cs = .ok rest := by
  fun_induction scanString state done cs with
  | case1 | case4 | case8 | case10 | case11 | case15 | case17 => cases h
  | case2 done cs =>
    cases h
    rfl
  | case3 done cs hquote ih => exact ih h
  | case5 done c cs hquote hbackslash hcontrol ih =>
    rw [StringScan.skipped, skipString, if_neg hquote, if_neg hbackslash, if_neg hcontrol]
    exact ih h
  | case6 done cs ih => exact ih h
  | case7 done c cs hunicode e hescaped ih =>
    rw [StringScan.skipped, skipString, if_neg hunicode, hescaped]
    exact ih h
  | case9 high? taken value? done c cs htaken ih =>
    have hnext := ih h
    rw [StringScan.skipped, isSome_pushHex] at hnext
    rw [StringScan.skipped, skipString, if_pos htaken]
    exact hnext
  | case12 high? taken value? done c cs htaken value hvalue state ch hclose ih =>
    have hnext := ih h
    rw [closeHex_skipped hclose] at hnext
    rw [StringScan.skipped, skipString, if_neg htaken, ← isSome_pushHex, hvalue]
    exact hnext
  | case13 high? taken value? done c cs htaken value hvalue state hclose ih =>
    have hnext := ih h
    rw [closeHex_skipped hclose] at hnext
    rw [StringScan.skipped, skipString, if_neg htaken, ← isSome_pushHex, hvalue]
    exact hnext
  -- the escape of the partner is skipped like any other one
  | case14 high done cs ih => exact ih h
  | case16 high done cs ih => exact ih h

theorem skipString_writeString (s : String) (rest : List Char) :
    ∃ body, writeString s rest = '"' :: body ∧ skipString .plain body = .ok rest := by
  obtain ⟨body, hbody, hread⟩ := writeString_eq s rest
  refine ⟨body, hbody, ?_⟩
  unfold readStringBody at hread
  split at hread
  · next chars rest' hscan =>
    cases hread
    exact skipString_of_scanString hscan
  · cases hread

/-! ### The stack of open brackets -/

/-- One turn, at the character `c`. -/
def skipTurn : Expecting → List Bracket → Char → List Char → Except ReadError SkipState
  | .value, stack, c, rest => skipStart stack c rest
  | .key, stack, c, rest => skipNamed stack c rest
  | .first, b :: stack, c, rest => skipFirst b stack c rest
  | .after, b :: stack, c, rest => skipBehind b stack c rest
  | _, [], _, _ => .error .malformed

/-- Skipping comes from one state to another one, in no more turns than there are characters in between. -/
def Skips (s s' : SkipState) : Prop :=
  ∃ turns, turns + s'.2.2.length ≤ s.2.2.length ∧
    ∀ bound : List Char, turns ≤ bound.length → skipLoop bound s = skipLoop (bound.drop turns) s'

section
variable {s s' s'' : SkipState} {expecting : Expecting} {stack : List Bracket}

theorem Skips.refl (s : SkipState) : Skips s s :=
  ⟨0, Nat.le_of_eq (Nat.zero_add _), fun _ _ => rfl⟩

theorem Skips.trans (h : Skips s s') (h' : Skips s' s'') : Skips s s'' := by
  obtain ⟨turns, hlength, hloop⟩ := h
  obtain ⟨turns', hlength', hloop'⟩ := h'
  refine ⟨turns + turns', by omega, fun bound hbound => ?_⟩
  rw [hloop bound (by omega), hloop' (bound.drop turns) (by rw [List.length_drop]; omega), List.drop_drop]

theorem Skips.turn (h : skipBlanks cs = c :: ds) (hturn : skipTurn expecting stack c ds = .ok s')
    (hlength : s'.2.2.length ≤ ds.length) : Skips (expecting, stack, cs) s' := by
  have hconsumed : ds.length + 1 ≤ cs.length := length_le_of_skipBlanks h
  have hnext := nextChar_eq h
  refine ⟨1, by dsimp only; omega, fun bound hbound => ?_⟩
  cases bound with
  | nil => exact absurd hbound (by decide)
  | cons b bound =>
    cases expecting with
    | value =>
      rw [skipLoop, bind_of_ok hnext]
      exact bind_of_ok hturn _
    | key =>
      rw [skipLoop, bind_of_ok hnext]
      exact bind_of_ok hturn _
    | first =>
      cases stack with
      | nil => cases hturn
      | cons b stack =>
        rw [skipLoop, bind_of_ok hnext]
        exact bind_of_ok hturn _
    | after =>
      cases stack with
      | nil => cases hturn
      | cons b stack =>
        rw [skipLoop, bind_of_ok hnext]
        exact bind_of_ok hturn _

/-- Skipping passes over a text that begins like a value. -/
def Passes (stack : List Bracket) (cs rest : List Char) : Prop :=
  ∃ c ds s, skipBlanks cs = c :: ds ∧ c ≠ ']' ∧ skipStart stack c ds = .ok s ∧ s.2.2.length ≤ ds.length ∧
    Skips s (.after, stack, rest)

theorem Passes.value (h : Passes stack cs rest) : Skips (.value, stack, cs) (.after, stack, rest) := by
  obtain ⟨c, ds, s, hc, -, hstart, hlength, hskips⟩ := h
  exact Skips.trans (Skips.turn hc hstart hlength) hskips

/-- The first item of an array is a value and not the closing bracket. -/
theorem Passes.first (h : Passes (.array :: stack) cs rest) :
    Skips (.first, .array :: stack, cs) (.after, .array :: stack, rest) := by
  obtain ⟨c, ds, s, hc, hopen, hstart, hlength, hskips⟩ := h
  refine Skips.trans (Skips.turn hc ?_ hlength) hskips
  have hclosed : Bracket.array.closedBy c = false := beq_eq_false_iff_ne.mpr hopen
  rw [skipTurn, skipFirst, hclosed, if_neg Bool.false_ne_true]
  exact hstart

theorem Passes.of_scalar (h : skipBlanks cs = c :: ds) (hscalar : skipScalar? c ds = .ok (some rest))
    (hopen : c ≠ ']') (hlength : rest.length ≤ ds.length) (stack : List Bracket) : Passes stack cs rest := by
  refine ⟨c, ds, (.after, stack, rest), h, hopen, ?_, hlength, Skips.refl _⟩
  unfold skipStart
  rw [bind_of_ok hscalar]
  rfl

/-- A key and its colon. -/
theorem skipKey_eq {k : String} {colon : List Char} (hk : skipBlanks cs = writeString k colon)
    (hcolon : skipBlanks colon = ':' :: inner) :
    ∃ body, skipBlanks cs = '"' :: body ∧ skipKey body = .ok inner ∧ inner.length ≤ body.length := by
  obtain ⟨body, hbody, hskip⟩ := skipString_writeString k colon
  have hkey : colon.length < ('"' :: body).length := hbody ▸ lt_length_writeString k colon
  have hbehind := length_le_of_skipBlanks hcolon
  rw [List.length_cons] at hkey hbehind
  refine ⟨body, hk.trans hbody, ?_, by omega⟩
  unfold skipKey
  rw [bind_of_ok hskip, bind_of_ok (nextChar_eq hcolon)]
  rfl

end

/-- A member is followed by a comma or by the closing bracket. -/
theorem SpellsTrees.stops (h : SpellsTrees false ts cs rest) : Stops cs := by
  cases h with
  | nil h => exact stops_of_skipBlanks h (by decide)
  | next h _ _ => exact stops_of_skipBlanks h (by decide)

theorem SpellsMembers.stops (h : SpellsMembers false ms cs rest) : Stops cs := by
  cases h with
  | nil h => exact stops_of_skipBlanks h (by decide)
  | next h _ _ _ _ => exact stops_of_skipBlanks h (by decide)

theorem Literal.lt_length_write (n : Literal) (rest : List Char) : rest.length < (n.write rest).length := by
  have hexponent : rest.length ≤ (writeExponent n.exponent? rest).length := by
    cases n.exponent? with
    | none => exact Nat.le_refl _
    | some e =>
      unfold writeExponent
      simp only [List.length_cons, List.length_append]
      omega
  have hfraction : rest.length ≤ (writeFraction n.fraction? (writeExponent n.exponent? rest)).length := by
    cases n.fraction? with
    | none => exact hexponent
    | some ds =>
      unfold writeFraction
      simp only [List.length_cons, List.length_append]
      omega
  have hwhole : 0 < n.whole.length := List.length_pos_iff.mpr n.whole_digits.1
  unfold Numeral.write
  rw [List.length_append, List.length_append]
  omega

/-- Every number is skipped up to its end. -/
theorem Literal.passes (n : Literal) (h : skipBlanks cs = n.write rest) (hrest : Stops rest)
    (stack : List Bracket) : Passes stack cs rest := by
  obtain ⟨c, ds, hds, hc⟩ := n.exists_write rest
  have hstart : ∀ d, isDigit d = false → d ≠ '-' → c ≠ d := by
    rintro d hd hsign rfl
    rcases hc with hc | hc
    · exact hsign hc
    · exact Bool.false_ne_true (hd.symm.trans hc)
  have hlength : rest.length < (c :: ds).length := hds ▸ n.lt_length_write rest
  have hskip : skipNumeral (c :: ds) = .ok rest := by
    unfold skipNumeral
    rw [← hds, n.readNumeral_write hrest]
  refine Passes.of_scalar (h.trans hds) ?_ (hstart ']' rfl (by decide)) (Nat.le_of_lt_succ hlength) stack
  unfold skipScalar?
  rw [if_neg (hstart 'n' rfl (by decide)), if_neg (hstart 't' rfl (by decide)), if_neg (hstart 'f' rfl (by decide)),
    if_pos hc, hskip]
  rfl

theorem passes_string {s : String} (h : skipBlanks cs = writeString s rest) (stack : List Bracket) :
    Passes stack cs rest := by
  obtain ⟨body, hbody, hskip⟩ := skipString_writeString s rest
  have hlength : rest.length < ('"' :: body).length := hbody ▸ lt_length_writeString s rest
  refine Passes.of_scalar (h.trans hbody) ?_ (by decide) (Nat.le_of_lt_succ hlength) stack
  have hscalar : skipScalar? '"' body = some <$> skipString .plain body := rfl
  rw [hscalar, hskip]
  rfl

mutual

/-- However deep a value is, skipping comes to the text behind it with the brackets that were open before. -/
theorem Tree.Spells.passes : ∀ {t : Tree} {cs rest : List Char}, t.Spells cs rest → Stops rest →
    ∀ stack, Passes stack cs rest
  | _, _, rest, .null h, _ => Passes.of_scalar h rfl (by decide) (Nat.le_add_right _ 3)
  | _, _, rest, @Tree.Spells.boolean _ _ false h, _ => Passes.of_scalar h rfl (by decide) (Nat.le_add_right _ 4)
  | _, _, rest, @Tree.Spells.boolean _ _ true h, _ => Passes.of_scalar h rfl (by decide) (Nat.le_add_right _ 3)
  | _, _, _, .number h, hrest => Literal.passes _ h hrest
  | _, _, _, .string h, _ => passes_string h
  | _, _, _, .array h hts, _ => fun stack =>
    ⟨_, _, _, h, by decide, rfl, Nat.le_refl _, hts.passes stack⟩
  | _, _, _, .object h hms, _ => fun stack =>
    ⟨_, _, _, h, by decide, rfl, Nat.le_refl _, hms.passes stack⟩

theorem SpellsTrees.passes : ∀ {isFirst : Bool} {ts : List Tree} {cs rest : List Char},
    SpellsTrees isFirst ts cs rest → ∀ stack,
      Skips (if isFirst then .first else .after, .array :: stack, cs) (.after, stack, rest)
  | true, _, _, _, .nil h, _ => Skips.turn h rfl (Nat.le_refl _)
  | false, _, _, _, .nil h, _ => Skips.turn h rfl (Nat.le_refl _)
  | _, _, _, _, .first ht hts, stack => (ht.passes hts.stops _).first.trans (hts.passes stack)
  | _, _, _, _, .next h ht hts, stack => by
    refine Skips.trans ?_ ((ht.passes hts.stops _).value.trans (hts.passes stack))
    exact Skips.turn h rfl (Nat.le_refl _)

theorem SpellsMembers.passes : ∀ {isFirst : Bool} {ms : List (String × Tree)} {cs rest : List Char},
    SpellsMembers isFirst ms cs rest → ∀ stack,
      Skips (if isFirst then .first else .after, .object :: stack, cs) (.after, stack, rest)
  | true, _, _, _, .nil h, _ => Skips.turn h rfl (Nat.le_refl _)
  | false, _, _, _, .nil h, _ => Skips.turn h rfl (Nat.le_refl _)
  | _, _, _, _, .first hk hcolon ht hms, stack => by
    obtain ⟨body, hquote, hkey, hlength⟩ := skipKey_eq hk hcolon
    refine Skips.trans (Skips.turn hquote ?_ hlength) ((ht.passes hms.stops _).value.trans (hms.passes stack))
    exact bind_of_ok hkey _
  | _, _, _, _, .next h hk hcolon ht hms, stack => by
    obtain ⟨body, hquote, hkey, hlength⟩ := skipKey_eq hk hcolon
    refine Skips.trans (Skips.turn h rfl (Nat.le_refl _)) ?_
    refine Skips.trans (Skips.turn hquote ?_ hlength) ((ht.passes hms.stops _).value.trans (hms.passes stack))
    exact bind_of_ok hkey _

end

/-- A value of any kind is skipped. -/
theorem skipValue_spelled (h : t.Spells cs rest) (hrest : Stops rest) : skipValue cs = .ok rest := by
  obtain ⟨turns, hlength, hloop⟩ := (h.passes hrest []).value
  have hbound : turns < (' ' :: cs).length := Nat.lt_succ_of_le (Nat.le_of_add_right_le hlength)
  unfold skipValue
  rw [hloop _ (Nat.le_of_lt hbound), List.drop_eq_getElem_cons hbound]
  rfl

/-- A value takes at least one character. -/
theorem Tree.Spells.length_lt (h : t.Spells cs rest) (hrest : Stops rest) : rest.length < cs.length := by
  obtain ⟨c, ds, s, hc, -, -, hlength, turns, hturns, -⟩ := h.passes hrest []
  have hle := length_le_of_skipBlanks hc
  dsimp only [List.length_cons] at hle hturns
  omega

theorem SpellsMembers.length_lt : ∀ {isFirst : Bool} {ms : List (String × Tree)} {cs rest : List Char},
    SpellsMembers isFirst ms cs rest → rest.length + ms.length < cs.length
  | _, _, _, _, .nil h => length_le_of_skipBlanks h
  | _, _, _, _, .first hk hcolon ht hms => by
    have hkey := (lt_length_writeString _ _).trans_le (length_le_of_skipBlanks hk)
    have hle := length_le_of_skipBlanks hcolon
    have hvalue := ht.length_lt hms.stops
    have hmembers := hms.length_lt
    rw [List.length_cons] at hle ⊢
    omega
  | _, _, _, _, .next h hk hcolon ht hms => by
    have hcomma := length_le_of_skipBlanks h
    have hkey := (lt_length_writeString _ _).trans_le (length_le_of_skipBlanks hk)
    have hle := length_le_of_skipBlanks hcolon
    have hvalue := ht.length_lt hms.stops
    have hmembers := hms.length_lt
    rw [List.length_cons] at hcomma hle ⊢
    omega

/-! ### Values as trees -/

mutual

/-- The tree of a value that the library writes. -/
def Value.tree : Value → Tree
  | .null => .null
  | .boolean b => .boolean b
  | .number n => .number (.ofNat n)
  | .string s => .string s
  | .array vs => .array (treesOf vs)
  | .object fs => .object (membersOf fs)

def treesOf : List Value → List Tree
  | [] => []
  | v :: vs => v.tree :: treesOf vs

def membersOf : List (String × Value) → List (String × Tree)
  | [] => []
  | (k, v) :: fs => (k, v.tree) :: membersOf fs

end

mutual

theorem Value.spells_of_tree : ∀ {v : Value} {cs rest : List Char}, v.tree.Spells cs rest → v.Spells cs rest
  | .null, _, _, .null h => .null h
  | .boolean _, _, _, .boolean h => .boolean h
  | .number _, _, _, .number h => .number h
  | .string _, _, _, .string h => .string h
  | .array _, _, _, .array h hts => .array h (spellsItems_of_trees hts)
  | .object _, _, _, .object h hms => .object h (spellsFields_of_members hms)

theorem spellsItems_of_trees : ∀ {isFirst : Bool} {vs : List Value} {cs rest : List Char},
    SpellsTrees isFirst (treesOf vs) cs rest → SpellsItems isFirst vs cs rest
  | _, [], _, _, .nil h => .nil h
  | _, _ :: _, _, _, .first ht hts => .first (Value.spells_of_tree ht) (spellsItems_of_trees hts)
  | _, _ :: _, _, _, .next h ht hts => .next h (Value.spells_of_tree ht) (spellsItems_of_trees hts)

theorem spellsFields_of_members : ∀ {isFirst : Bool} {fs : List (String × Value)} {cs rest : List Char},
    SpellsMembers isFirst (membersOf fs) cs rest → SpellsFields isFirst fs cs rest
  | _, [], _, _, .nil h => .nil h
  | _, _ :: _, _, _, .first hk hcolon ht hms =>
    .first hk hcolon (Value.spells_of_tree ht) (spellsFields_of_members hms)
  | _, _ :: _, _, _, .next h hk hcolon ht hms =>
    .next h hk hcolon (Value.spells_of_tree ht) (spellsFields_of_members hms)

end

mutual

theorem Value.Spells.tree : ∀ {v : Value} {cs rest : List Char}, v.Spells cs rest → v.tree.Spells cs rest
  | _, _, _, .null h => .null h
  | _, _, _, .boolean h => .boolean h
  | _, _, _, .number h => .number h
  | _, _, _, .string h => .string h
  | _, _, _, .array h hvs => .array h hvs.trees
  | _, _, _, .object h hfs => .object h hfs.members

theorem SpellsItems.trees : ∀ {isFirst : Bool} {vs : List Value} {cs rest : List Char},
    SpellsItems isFirst vs cs rest → SpellsTrees isFirst (treesOf vs) cs rest
  | _, _, _, _, .nil h => .nil h
  | _, _, _, _, .first hv hvs => .first hv.tree hvs.trees
  | _, _, _, _, .next h hv hvs => .next h hv.tree hvs.trees

theorem SpellsFields.members : ∀ {isFirst : Bool} {fs : List (String × Value)} {cs rest : List Char},
    SpellsFields isFirst fs cs rest → SpellsMembers isFirst (membersOf fs) cs rest
  | _, _, _, _, .nil h => .nil h
  | _, _, _, _, .first hk hcolon hv hfs => .first hk hcolon hv.tree hfs.members
  | _, _, _, _, .next h hk hcolon hv hfs => .next h hk hcolon hv.tree hfs.members

end

/-! ### Trees as texts -/

mutual

/-- A value of any kind without blanks. -/
def Tree.compact : Tree → List Char → List Char
  | .null, rest => 'n' :: 'u' :: 'l' :: 'l' :: rest
  | .boolean b, rest => writeBoolean b rest
  | .number n, rest => n.write rest
  | .string s, rest => writeString s rest
  | .array [], rest => '[' :: ']' :: rest
  | .array (t :: ts), rest => '[' :: t.compact (compactTrees ts rest)
  | .object [], rest => '\x7b' :: '\x7d' :: rest
  | .object ((k, t) :: ms), rest => '\x7b' :: writeString k (':' :: t.compact (compactMembers ms rest))

def compactTrees : List Tree → List Char → List Char
  | [], rest => ']' :: rest
  | t :: ts, rest => ',' :: t.compact (compactTrees ts rest)

def compactMembers : List (String × Tree) → List Char → List Char
  | [], rest => '\x7d' :: rest
  | (k, t) :: ms, rest => ',' :: writeString k (':' :: t.compact (compactMembers ms rest))

end

theorem Literal.skipBlanks_write (n : Literal) (rest : List Char) : skipBlanks (n.write rest) = n.write rest := by
  obtain ⟨c, cs, hcs, hc⟩ := n.exists_write rest
  rw [hcs]
  apply skipBlanks_cons_of_not
  rcases hc with rfl | hc
  · rfl
  · unfold isBlank
    simp only [Bool.or_eq_false_iff, beq_eq_false_iff_ne]
    exact ⟨⟨⟨not_of_isDigit hc rfl, not_of_isDigit hc rfl⟩, not_of_isDigit hc rfl⟩, not_of_isDigit hc rfl⟩

mutual

theorem Tree.compact_spells : ∀ (t : Tree) (rest : List Char), t.Spells (t.compact rest) rest
  | .null, _ => .null (skipBlanks_cons_of_not rfl)
  | .boolean b, rest => .boolean (skipBlanks_writeBoolean b rest)
  | .number n, rest => .number (n.skipBlanks_write rest)
  | .string _, _ => .string (skipBlanks_cons_of_not rfl)
  | .array [], _ => .array (skipBlanks_cons_of_not rfl) (.nil (skipBlanks_cons_of_not rfl))
  | .array (t :: ts), rest =>
    .array (skipBlanks_cons_of_not rfl) (.first (t.compact_spells _) (compactTrees_spells ts rest))
  | .object [], _ => .object (skipBlanks_cons_of_not rfl) (.nil (skipBlanks_cons_of_not rfl))
  | .object ((_, t) :: ms), rest =>
    .object (skipBlanks_cons_of_not rfl) (.first (skipBlanks_cons_of_not rfl) (skipBlanks_cons_of_not rfl)
      (t.compact_spells _) (compactMembers_spells ms rest))

theorem compactTrees_spells : ∀ (ts : List Tree) (rest : List Char), SpellsTrees false ts (compactTrees ts rest) rest
  | [], _ => .nil (skipBlanks_cons_of_not rfl)
  | t :: ts, rest => .next (skipBlanks_cons_of_not rfl) (t.compact_spells _) (compactTrees_spells ts rest)

theorem compactMembers_spells : ∀ (ms : List (String × Tree)) (rest : List Char),
    SpellsMembers false ms (compactMembers ms rest) rest
  | [], _ => .nil (skipBlanks_cons_of_not rfl)
  | (_, t) :: ms, rest =>
    .next (skipBlanks_cons_of_not rfl) (skipBlanks_cons_of_not rfl) (skipBlanks_cons_of_not rfl)
      (t.compact_spells _) (compactMembers_spells ms rest)

end

/-- A whole text is a way of writing a value of any kind; only blanks stand behind it. -/
def Tree.SpelledBy (t : Tree) (text : String) : Prop :=
  ∃ rest, t.Spells text.toList rest ∧ skipBlanks rest = []

/-- The compact text of a value of any kind. -/
def Tree.render (t : Tree) : String :=
  String.ofList (t.compact [])

theorem Tree.spelledBy_render (t : Tree) : t.SpelledBy t.render := by
  refine ⟨[], ?_, rfl⟩
  unfold render
  rw [String.toList_ofList]
  exact t.compact_spells []

theorem Value.SpelledBy.tree {v : Value} {text : String} (h : v.SpelledBy text) : v.tree.SpelledBy text := by
  obtain ⟨rest, hv, hrest⟩ := h
  exact ⟨rest, hv.tree, hrest⟩

end HeapRetention.Json
