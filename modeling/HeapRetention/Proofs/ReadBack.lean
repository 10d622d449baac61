import HeapRetention.Proofs.Results
import HeapRetention.Proofs.WrittenText

/-! Readers read back what was written. Each of them, in front of a value that it is meant for and in whatever
way that is spelled, returns the value and the text behind it. -/
namespace HeapRetention.Json
variable {α β : Type} {cs ds rest inner : List Char} {c : Char} {n bits : Nat} {v w : Value}
  {vs : List Value} {item : Reader α} {x : α}

/-- A reader finds `x` wherever the value `v` is spelled in front of a text that ends it. -/
def Reads (item : Reader α) (v : Value) (x : α) : Prop :=
  ∀ cs rest, v.Spells cs rest → Stops rest → item cs = .ok (x, rest)

theorem nextChar_eq (h : skipBlanks cs = c :: rest) : nextChar cs = .ok (c, rest) := by
  unfold nextChar
  rw [h]

/-! ### Numbers -/

theorem head_toDigits_ne_zero (hn : 0 < n) (h : Nat.toDigits 10 n = c :: ds) : c ≠ '0' := by
  induction n using Nat.strongRecOn generalizing ds with
  | ind n ih =>
    by_cases hsmall : n < 10
    · rw [Nat.toDigits_of_lt_base hsmall] at h
      cases h
      have hdigits : ∀ m < 10, 0 < m → m.digitChar ≠ '0' := by decide
      exact hdigits n hsmall hn
    · rw [Nat.toDigits_of_base_le (by decide) (Nat.not_lt.mp hsmall)] at h
      cases hmore : Nat.toDigits 10 (n / 10) with
      | nil => exact absurd hmore Nat.toDigits_ne_nil
      | cons d more =>
        rw [hmore] at h
        cases h
        exact ih (n / 10) (by omega) (by omega) hmore

theorem span_digits (h : ∀ c ∈ rest.head?, isDigit c = false) (hds : ∀ d ∈ ds, isDigit d = true) :
    (ds ++ rest).takeWhile isDigit = ds ∧ (ds ++ rest).dropWhile isDigit = rest := by
  rw [List.takeWhile_append_of_pos hds, List.dropWhile_append_of_pos hds]
  cases rest with
  | nil => exact ⟨List.append_nil _, rfl⟩
  | cons c rest =>
    have hc : ¬isDigit c = true := Bool.not_eq_true _ ▸ h c rfl
    rw [List.takeWhile_cons_of_neg hc, List.dropWhile_cons_of_neg hc]
    exact ⟨List.append_nil _, rfl⟩

/-- Digits in front of something else; a leading zero stands alone. -/
theorem readWhole_digits {d : Char} (hds : ∀ e ∈ d :: ds, isDigit e = true) (hzero : d = '0' → ds = [])
    (h : ∀ c ∈ rest.head?, isDigit c = false) : readWhole (d :: ds ++ rest) = .ok (d :: ds, rest) := by
  by_cases hd : d = '0'
  · subst hd
    rw [hzero rfl]
    cases rest with
    | nil => rfl
    | cons c rest => exact if_neg (Bool.not_eq_true _ ▸ h c rfl)
  · obtain ⟨htake, hdrop⟩ := span_digits h hds
    rw [List.cons_append] at htake hdrop ⊢
    unfold readWhole
    split
    · next heq => cases heq
    · next heq => exact absurd (List.cons.inj heq).1 hd
    · next heq => exact absurd (List.cons.inj heq).1 hd
    · next heq =>
      cases heq
      rw [if_pos (hds d List.mem_cons_self), htake, hdrop]

theorem readWhole_writeNumber (n : Nat) (h : Stops rest) :
    readWhole (writeNumber n rest) = .ok (Nat.toDigits 10 n, rest) := by
  unfold writeNumber
  cases hdigits : Nat.toDigits 10 n with
  | nil => exact absurd hdigits Nat.toDigits_ne_nil
  | cons d ds =>
    apply readWhole_digits _ _ fun c hc => (h c hc).1
    · exact fun e he => isDigit_of_mem_toDigits (hdigits ▸ he)
    · intro hd
      by_cases hzero : n = 0
      · subst hzero
        exact (List.cons.inj hdigits).2.symm
      · exact absurd hd (head_toDigits_ne_zero (Nat.pos_of_ne_zero hzero) hdigits)

theorem readFraction?_of_stops (h : Stops rest) : readFraction? rest = .ok (none, rest) := by
  unfold readFraction?
  split
  · exact absurd rfl (h '.' rfl).2.1
  · exact absurd rfl (h '.' rfl).2.1
  · rfl

theorem readExponent?_of_stops (h : Stops rest) : readExponent? rest = .ok (none, rest) := by
  unfold readExponent?
  cases rest with
  | nil => rfl
  | cons c rest => exact if_neg (not_or.mpr (h c rfl).2.2)

theorem readNumeral_writeNumber (n : Nat) (h : Stops rest) :
    readNumeral (writeNumber n rest) = .ok (⟨false, Nat.toDigits 10 n, none, none⟩, rest) := by
  have hwhole := readWhole_writeNumber n h
  obtain ⟨c, cs, hcs, hc⟩ := exists_writeNumber n rest
  have hunsigned : c ≠ '-' := not_of_isDigit hc rfl
  unfold readNumeral
  rw [hcs] at hwhole ⊢
  split
  · next heq =>
    split at heq
    · next hsign =>
      cases hsign
      exact absurd rfl hunsigned
    · cases heq
      rw [bind_of_ok hwhole]
      dsimp only
      rw [bind_of_ok (readFraction?_of_stops h)]
      dsimp only
      rw [bind_of_ok (readExponent?_of_stops h)]
      rfl

theorem significand_eq {acc : Nat} (h : Nat.ofDigitChars 10 ds acc ≤ longMax) :
    significand acc ds = (Nat.ofDigitChars 10 ds acc, []) := by
  induction ds generalizing acc with
  | nil => rfl
  | cons d ds ih =>
    rw [Nat.ofDigitChars_cons] at h ⊢
    have hnext : 10 * acc + digitValue d ≤ longMax := by
      rw [Nat.ofDigitChars_eq_ofDigitChars_zero] at h
      have hpower : 0 < 10 ^ ds.length := Nat.pow_pos (by decide)
      have hgrows := Nat.le_mul_of_pos_left (10 * acc + digitValue d) hpower
      exact (hgrows.trans (Nat.le_add_right _ _)).trans h
    rw [significand, if_neg (Nat.not_lt.mpr hnext)]
    exact ih h

theorem readNumeric_writeNumber (hn : n ≤ longMax) (h : Stops rest) :
    readNumeric (writeNumber n rest) = .ok (.natural n, rest) := by
  have hsignificand : significand 0 (Nat.toDigits 10 n) = (n, []) := by
    rw [significand_eq (by rwa [Nat.ofDigitChars_ten_toDigits]), Nat.ofDigitChars_ten_toDigits]
  unfold readNumeric
  rw [bind_of_ok (readNumeral_writeNumber n h)]
  dsimp only
  unfold Numeral.classify
  dsimp only
  rw [hsignificand]
  rfl

theorem reads_word (hbits : bits ≤ 64) (title : String) (hn : n < powerOfTwo bits) :
    Reads (readWord bits title) (.number n) n := by
  intro cs rest hv hrest
  obtain h : skipBlanks cs = writeNumber n rest := by
    cases hv with
    | number h => exact h
  have hlong : n ≤ longMax := by
    have hpower : powerOfTwo bits ≤ powerOfTwo 64 := Nat.pow_le_pow_right (by decide) hbits
    exact Nat.le_of_lt_succ (hn.trans_le hpower)
  have hnumeric := readNumeric_writeNumber hlong hrest
  obtain ⟨c, ds, hds, hc⟩ := exists_writeNumber n rest
  rw [hds] at h hnumeric
  unfold readWord
  rw [bind_of_ok (nextChar_eq h)]
  dsimp only
  rw [if_pos (Or.inr hc), bind_of_ok hnumeric]
  dsimp only
  rw [if_pos hn]
  rfl

/-! ### Booleans and strings -/

theorem reads_boolean (b : Bool) : Reads readBoolean (.boolean b) b := by
  intro cs rest hv _
  obtain h : skipBlanks cs = writeBoolean b rest := by
    cases hv with
    | boolean h => exact h
  unfold readBoolean
  cases b with
  | false =>
    rw [bind_of_ok (nextChar_eq h)]
    rfl
  | true =>
    rw [bind_of_ok (nextChar_eq h)]
    rfl

theorem pushHex_hexDigit (hn : n < 16) (value : Nat) :
    pushHex (some value) (hexDigit n) = some (16 * value + n) := by
  have hall : ∀ m < 16, hexValue? (hexDigit m) = some m := by decide
  unfold pushHex
  rw [hall n hn]

theorem utf8Size_hexDigit (hn : n < 16) : (hexDigit n).utf8Size = 1 := by
  have hall : ∀ m < 16, (hexDigit m).utf8Size = 1 := by decide
  exact hall n hn

theorem closeHex_control (hn : n < 32) : closeHex none n = .ok (.plain, some (Char.ofNat n)) := by
  have hlow : isLowSurrogate n = false := by
    unfold isLowSurrogate
    rw [decide_eq_false (by omega), Bool.false_and]
  have hhigh : isHighSurrogate n = false := by
    unfold isHighSurrogate
    rw [decide_eq_false (by omega), Bool.false_and]
  unfold closeHex
  rw [hlow, hhigh]
  rfl

/-- Whatever is escaped is found again. -/
theorem scanString_escapeChar (c : Char) (done tail : List Char) :
    scanString .plain done (escapeChar c ++ tail) = scanString .plain (c :: done) tail := by
  unfold escapeChar
  by_cases hnamed : c ∈ ['"', '\\', '\n', '\r', '\t', '\x08', '\x0c']
  · simp only [List.mem_cons, List.not_mem_nil, or_false] at hnamed
    rcases hnamed with rfl | rfl | rfl | rfl | rfl | rfl | rfl <;> rfl
  simp only [List.mem_cons, List.not_mem_nil, or_false, not_or] at hnamed
  obtain ⟨hquote, hbackslash, hline, hreturn, htab, hback, hfeed⟩ := hnamed
  rw [if_neg hquote, if_neg hbackslash, if_neg hline, if_neg hreturn, if_neg htab, if_neg hback, if_neg hfeed]
  by_cases hcontrol : c.toNat < 32
  -- two zeros and two digits for the number of the character
  · have hhigh : c.toNat / 16 < 16 := by omega
    have hlow : c.toNat % 16 < 16 := Nat.mod_lt _ (by decide)
    have hzeros : scanString .plain done
        (['\\', 'u', '0', '0', hexDigit (c.toNat / 16), hexDigit (c.toNat % 16)] ++ tail) =
        scanString (.hex none 2 (some 0)) done
          (hexDigit (c.toNat / 16) :: hexDigit (c.toNat % 16) :: tail) := rfl
    have hthree : scanString (.hex none 2 (some 0)) done
        (hexDigit (c.toNat / 16) :: hexDigit (c.toNat % 16) :: tail) =
        scanString (.hex none 3 (some (c.toNat / 16))) done (hexDigit (c.toNat % 16) :: tail) := by
      rw [scanString, utf8Size_hexDigit hhigh, if_pos (by decide), pushHex_hexDigit hhigh, Nat.mul_zero,
        Nat.zero_add]
    have hfour : pushHex (some (c.toNat / 16)) (hexDigit (c.toNat % 16)) = some c.toNat := by
      rw [pushHex_hexDigit hlow, Nat.div_add_mod]
    rw [if_pos hcontrol, hzeros, hthree, scanString, utf8Size_hexDigit hlow, if_neg (by decide), hfour]
    dsimp only
    rw [closeHex_control hcontrol, Char.ofNat_toNat]
  · rw [if_neg hcontrol, List.singleton_append, scanString, if_neg hquote, if_neg hbackslash, if_neg hcontrol]

theorem scanString_escaped (chars done tail : List Char) :
    scanString .plain done (chars.foldr (fun c tail => escapeChar c ++ tail) ('"' :: tail)) =
      .ok (done.reverse ++ chars, tail) := by
  induction chars generalizing done with
  | nil => exact congrArg (fun ds => Except.ok (ds, tail)) (List.append_nil _).symm
  | cons c chars ih =>
    rw [List.foldr_cons, scanString_escapeChar, ih, List.reverse_cons, List.append_assoc]
    rfl

/-- The text of a string behind its opening quote. -/
theorem writeString_eq (s : String) (rest : List Char) :
    ∃ body, writeString s rest = '"' :: body ∧ readStringBody body = .ok (s, rest) := by
  refine ⟨_, rfl, ?_⟩
  unfold readStringBody
  rw [scanString_escaped]
  exact congrArg (fun t => Except.ok (t, rest)) String.ofList_toList

theorem reads_string (s : String) : Reads readString (.string s) s := by
  intro cs rest hv _
  obtain ⟨body, hbody, hread⟩ := writeString_eq s rest
  have h : skipBlanks cs = '"' :: body := by
    cases hv with
    | string h => exact h.trans hbody
  unfold readString
  rw [bind_of_ok (nextChar_eq h)]
  exact hread

/-- A fixed choice of names. -/
theorem reads_choice {names : List (String × α)} {name : String} (h : names.lookup name = some x) :
    Reads (readChoice names) (.string name) x := by
  intro cs rest hv _
  obtain ⟨body, hbody, hread⟩ := writeString_eq name rest
  have hstart : skipBlanks cs = '"' :: body := by
    cases hv with
    | string h => exact h.trans hbody
  have hname : readChoiceName names name = .ok x := by
    unfold readChoiceName
    rw [h]
  unfold readChoice
  rw [bind_of_ok (nextChar_eq hstart)]
  dsimp only
  rw [if_pos rfl, bind_of_ok hread]
  dsimp only
  rw [bind_of_ok hname]
  rfl

/-! ### Options, sequences and pairs -/

/-- A record that may be absent is no `null`. -/
theorem reads_some {fs : List (String × Value)} (h : Reads item (.object fs) x) :
    Reads (readOption item) (.object fs) (some x) := by
  intro cs rest hv hrest
  cases hv with
  | @object _ inner _ _ hstart hfs =>
    have hagain : (Value.object fs).Spells ('\x7b' :: inner) rest :=
      .object (skipBlanks_cons_of_not rfl) hfs
    unfold readOption
    rw [bind_of_ok (nextChar_eq hstart)]
    dsimp only
    rw [if_neg (by decide), bind_of_ok (h _ _ hagain hrest)]
    rfl

theorem nextItem_end (h : skipBlanks cs = ']' :: rest) (isFirst : Bool) : nextItem isFirst cs = .ok none := by
  unfold nextItem
  rw [bind_of_ok (nextChar_eq h)]
  rfl

theorem endSequence_eq (h : skipBlanks cs = ']' :: rest) : endSequence cs = .ok rest := by
  unfold endSequence
  rw [bind_of_ok (nextChar_eq h)]
  rfl

theorem nextItem_first (h : v.Spells cs rest) : nextItem true cs = .ok (some (skipBlanks cs)) := by
  obtain ⟨c, ds, hstart, hc⟩ := h.exists_start
  unfold nextItem
  rw [bind_of_ok (nextChar_eq hstart), hstart]
  dsimp only
  rw [if_neg hc]
  rfl

theorem nextItem_next (hcomma : skipBlanks cs = ',' :: inner) (h : v.Spells inner rest) :
    nextItem false cs = .ok (some (skipBlanks inner)) := by
  obtain ⟨c, ds, hstart, hc⟩ := h.exists_start
  unfold nextItem
  rw [bind_of_ok (nextChar_eq hcomma)]
  dsimp only
  rw [if_neg (by decide), if_neg (by decide), if_pos rfl, bind_of_ok (nextChar_eq hstart), hstart]
  dsimp only
  rw [if_neg hc]
  rfl

/-- A reader does not see the blanks in front of its value. -/
theorem Reads.skipBlanks (h : Reads item v x) (hv : v.Spells cs rest) (hrest : Stops rest) :
    item (Json.skipBlanks cs) = .ok (x, rest) :=
  h _ _ (hv.congr (skipBlanks_skipBlanks cs)) hrest

/-- The items behind those that were read. The text bounds their number. -/
theorem readItems_spelled {f : α → Value} {xs done : List α} {bound : List Char} {isFirst : Bool}
    (hitems : ∀ x ∈ xs, Reads item (f x) x) (h : SpellsItems isFirst (xs.map f) cs rest)
    (hbound : xs.length < bound.length) :
    readItems item bound done isFirst cs = .ok (done.reverse ++ xs, rest) := by
  -- along the items; each of them uses up one character of the bound
  induction xs generalizing bound done isFirst cs with
  | nil =>
    cases bound with
    | nil => exact absurd hbound (Nat.not_lt_zero _)
    | cons b bound =>
      cases h with
      | nil h =>
        rw [readItems, bind_of_ok (nextItem_end h isFirst)]
        dsimp only
        rw [bind_of_ok (endSequence_eq h), List.append_nil]
        rfl
  | cons x xs ih =>
    cases bound with
    | nil => exact absurd hbound (Nat.not_lt_zero _)
    | cons b bound =>
      have hx := hitems x List.mem_cons_self
      have hmore : ∀ y ∈ xs, Reads item (f y) y := fun y hy => hitems y (List.mem_cons_of_mem _ hy)
      have hless : xs.length < bound.length := Nat.lt_of_succ_lt_succ hbound
      have hdone : (x :: done).reverse ++ xs = done.reverse ++ x :: xs := by
        rw [List.reverse_cons, List.append_assoc]
        rfl
      rw [readItems]
      cases h with
      | first hv hvs =>
        rw [bind_of_ok (nextItem_first hv)]
        dsimp only
        rw [bind_of_ok (hx.skipBlanks hv hvs.stops)]
        dsimp only
        rw [ih hmore hvs hless, hdone]
      | next hcomma hv hvs =>
        rw [bind_of_ok (nextItem_next hcomma hv)]
        dsimp only
        rw [bind_of_ok (hx.skipBlanks hv hvs.stops)]
        dsimp only
        rw [ih hmore hvs hless, hdone]

theorem reads_list {f : α → Value} {xs : List α} (h : ∀ x ∈ xs, Reads item (f x) x) :
    Reads (readList item) (.ofList f xs) xs := by
  intro cs rest hv _
  cases hv with
  | @array _ inner _ _ hstart hvs =>
    have hbound : xs.length < ('[' :: inner).length := by
      have hlength := hvs.length_lt
      rw [List.length_map] at hlength
      rw [List.length_cons]
      omega
    unfold readList
    rw [bind_of_ok (nextChar_eq hstart)]
    dsimp only
    rw [if_pos rfl]
    exact readItems_spelled h hvs hbound

theorem reads_pair {first : Reader α} {second : Reader β} {a : α} {b : β} (ha : Reads first v a)
    (hb : Reads second w b) : Reads (readPair first second) (.array [v, w]) (a, b) := by
  intro cs rest hvs _
  cases hvs with
  | array hstart hvs =>
    cases hvs with
    | first hv hws =>
      cases hws with
      | next hcomma hw hend =>
        have hstops := hend.stops
        cases hend with
        | nil hend =>
          unfold readPair
          rw [bind_of_ok (nextChar_eq hstart)]
          dsimp only
          rw [if_pos rfl, bind_of_ok (nextItem_first hv)]
          dsimp only
          rw [bind_of_ok (ha.skipBlanks hv (stops_of_skipBlanks hcomma (by decide)))]
          dsimp only
          rw [bind_of_ok (nextItem_next hcomma hw)]
          dsimp only
          rw [bind_of_ok (hb.skipBlanks hw hstops)]
          dsimp only
          rw [bind_of_ok (endSequence_eq hend)]
          rfl

end HeapRetention.Json
