import HeapRetention.Proofs.ReadBack

/-! Records and whole texts. The fields of an object fill a record one after another; and whatever a reader
returns, of any text, has the properties that its parts promise. -/
namespace HeapRetention.Json
variable {α β : Type} {cs rest inner body : List Char} {v : Value} {fs : List (String × Value)}
  {item : Reader α} {x : α} {P I : α → Prop}

theorem nextKey_end (h : skipBlanks cs = '\x7d' :: rest) (isFirst : Bool) : nextKey isFirst cs = .ok none := by
  unfold nextKey
  rw [bind_of_ok (nextChar_eq h)]
  rfl

theorem nextKey_first (h : skipBlanks cs = '"' :: body) : nextKey true cs = .ok (some body) := by
  unfold nextKey
  rw [bind_of_ok (nextChar_eq h)]
  rfl

theorem nextKey_next (hcomma : skipBlanks cs = ',' :: inner) (h : skipBlanks inner = '"' :: body) :
    nextKey false cs = .ok (some body) := by
  unfold nextKey
  rw [bind_of_ok (nextChar_eq hcomma)]
  dsimp only
  rw [if_neg (by decide), if_neg (by decide), if_pos rfl, bind_of_ok (nextChar_eq h)]
  rfl

theorem expectColon_eq (h : skipBlanks cs = ':' :: rest) : expectColon cs = .ok rest := by
  unfold expectColon
  rw [bind_of_ok (nextChar_eq h)]
  rfl

/-- A key comes next, and `inner` is the text behind its colon. -/
def KeyAhead (isFirst : Bool) (cs : List Char) (key : String) (inner : List Char) : Prop :=
  ∃ body colon, nextKey isFirst cs = .ok (some body) ∧ readStringBody body = .ok (key, colon) ∧
    skipBlanks colon = ':' :: inner

theorem keyAhead_first {key : String} {colon : List Char} (hk : skipBlanks cs = writeString key colon)
    (hcolon : skipBlanks colon = ':' :: inner) : KeyAhead true cs key inner := by
  obtain ⟨body, hbody, hkey⟩ := writeString_eq key colon
  exact ⟨body, colon, nextKey_first (hk.trans hbody), hkey, hcolon⟩

theorem keyAhead_next {key : String} {start colon : List Char} (hcomma : skipBlanks cs = ',' :: start)
    (hk : skipBlanks start = writeString key colon) (hcolon : skipBlanks colon = ':' :: inner) :
    KeyAhead false cs key inner := by
  obtain ⟨body, hbody, hkey⟩ := writeString_eq key colon
  exact ⟨body, colon, nextKey_next hcomma (hk.trans hbody), hkey, hcolon⟩

/-- The fields of an object fill a record: each of them is one that the record has, none comes twice, and
each is read from its value. -/
inductive Fills (fields : List (RecordField α)) :
    List String → α → List (String × Value) → List String → α → Prop where
  | nil {seen : List String} {r : α} : Fills fields seen r [] seen r
  | cons {seen seen' : List String} {r r' x : α} {key : String} {v : Value} {fs : List (String × Value)}
      {f : RecordField α} (hf : fields.find? (fun f => f.name == key) = some f)
      (hnew : seen.contains f.name = false) (hread : Reads (f.update r) v r')
      (hfs : Fills fields (f.name :: seen) r' fs seen' x) : Fills fields seen r ((key, v) :: fs) seen' x

theorem reads_make {name : String} {required : Bool} {store : β → α → β} {r : β} (h : Reads item v x) :
    Reads ((RecordField.make name required item store).update r) v (store r x) := by
  intro cs rest hv hrest
  unfold RecordField.make
  dsimp only
  rw [bind_of_ok (h cs rest hv hrest)]
  rfl

section
variable {fields : List (RecordField α)} {seen seen' : List String} {r blank : α} {bound : List Char}
  {isFirst : Bool} {title expected : String}

section
variable {b : Char} {r' : α} {key : String} {next : List Char} {f : RecordField α}

theorem readFields_end (h : skipBlanks cs = '\x7d' :: rest) :
    readFields fields (b :: bound) seen r isFirst cs = .ok ((seen, r), rest) := by
  rw [readFields, bind_of_ok (nextKey_end h isFirst)]
  dsimp only
  rw [bind_of_ok (nextChar_eq h)]
  rfl

/-- Behind the key of a field that was not there before its value is read. -/
theorem readFields_known (h : KeyAhead isFirst cs key inner) (hf : fields.find? (fun f => f.name == key) = some f)
    (hnew : seen.contains f.name = false) (hread : f.update r inner = .ok (r', next)) :
    readFields fields (b :: bound) seen r isFirst cs = readFields fields bound (f.name :: seen) r' false next := by
  obtain ⟨body, colon, hnext, hkey, hcolon⟩ := h
  rw [readFields, bind_of_ok hnext]
  dsimp only
  rw [bind_of_ok hkey]
  dsimp only
  rw [hf]
  dsimp only
  rw [hnew, if_neg Bool.false_ne_true, bind_of_ok (expectColon_eq hcolon), bind_of_ok hread]

/-- Behind the key of no field the value is skipped. -/
theorem readFields_unknown (h : KeyAhead isFirst cs key inner) (hf : fields.find? (fun f => f.name == key) = none)
    (hskip : skipValue inner = .ok next) :
    readFields fields (b :: bound) seen r isFirst cs = readFields fields bound seen r false next := by
  obtain ⟨body, colon, hnext, hkey, hcolon⟩ := h
  rw [readFields, bind_of_ok hnext]
  dsimp only
  rw [bind_of_ok hkey]
  dsimp only
  rw [hf]
  dsimp only
  rw [bind_of_ok (expectColon_eq hcolon), bind_of_ok hskip]

end

/-- The fields behind those that were read. The text bounds their number. -/
theorem readFields_spelled (hfills : Fills fields seen r fs seen' x) (h : SpellsFields isFirst fs cs rest)
    (hbound : fs.length < bound.length) : readFields fields bound seen r isFirst cs = .ok ((seen', x), rest) := by
  induction hfills generalizing bound isFirst cs with
  | nil =>
    cases bound with
    | nil => exact absurd hbound (Nat.not_lt_zero _)
    | cons b bound =>
      cases h with
      | nil h => exact readFields_end h
  | @cons seen seen' r r' x key v fs f hf hnew hread hfs ih =>
    cases bound with
    | nil => exact absurd hbound (Nat.not_lt_zero _)
    | cons b bound =>
      have hless : fs.length < bound.length := Nat.lt_of_succ_lt_succ hbound
      cases h with
      | first hk hcolon hv hmore =>
        rw [readFields_known (keyAhead_first hk hcolon) hf hnew (hread _ _ hv hmore.stops)]
        exact ih hmore hless
      | next hcomma hk hcolon hv hmore =>
        rw [readFields_known (keyAhead_next hcomma hk hcolon) hf hnew (hread _ _ hv hmore.stops)]
        exact ih hmore hless

/-- An object that fills a record, and does not leave out what has no default, is read as that record. -/
theorem reads_record (title : String) (hfills : Fills fields [] blank fs seen x)
    (hall : fields.find? (fun f => f.required && !seen.contains f.name) = none) :
    Reads (readRecord title fields blank) (.object fs) x := by
  intro cs rest hv _
  cases hv with
  | @object _ inner _ _ hstart hfs =>
    have hbound : fs.length < ('\x7b' :: inner).length := by
      have hlength := hfs.length_lt
      rw [List.length_cons]
      omega
    unfold readRecord
    rw [bind_of_ok (nextChar_eq hstart)]
    dsimp only
    rw [if_pos rfl, bind_of_ok (readFields_spelled hfills hfs hbound)]
    dsimp only
    rw [hall]
    rfl

end

/-- A whole text is a way of writing a value; only blanks stand behind it. -/
def Value.SpelledBy (v : Value) (text : String) : Prop :=
  ∃ rest, v.Spells text.toList rest ∧ skipBlanks rest = []

theorem Value.spelledBy_render (v : Value) : v.SpelledBy v.render := by
  refine ⟨[], ?_, rfl⟩
  unfold render
  rw [String.toList_ofList]
  exact v.compact_spells []

theorem Value.spelledBy_renderPretty (v : Value) : v.SpelledBy v.renderPretty := by
  refine ⟨[], ?_, rfl⟩
  unfold renderPretty
  rw [String.toList_ofList]
  exact v.prettyAt_spells 0 []

theorem stops_of_blank (h : skipBlanks rest = []) : Stops rest := by
  intro c hc
  have hblank := List.dropWhile_eq_nil_iff.mp h c (List.mem_of_mem_head? hc)
  unfold isBlank at hblank
  simp only [Bool.or_eq_true, beq_iff_eq] at hblank
  rcases hblank with ((rfl | rfl) | rfl) | rfl <;> decide

theorem readDocument_of_ok {text : String} (h : item text.toList = .ok (x, rest)) (hrest : skipBlanks rest = []) :
    readDocument item text = .ok x := by
  unfold readDocument
  rw [bind_of_ok h]
  dsimp only
  rw [hrest]
  rfl

theorem readDocument_spelled {text : String} (h : Reads item v x) (hv : v.SpelledBy text) :
    readDocument item text = .ok x := by
  obtain ⟨rest, hv, hrest⟩ := hv
  exact readDocument_of_ok (h _ rest hv (stops_of_blank hrest)) hrest

/-! ### What readers return -/

/-- Whatever a reader returns has a property. -/
def Yields (item : Reader α) (P : α → Prop) : Prop :=
  ∀ cs x rest, item cs = .ok (x, rest) → P x

theorem yields_any (item : Reader α) : Yields item fun _ => True :=
  fun _ _ _ _ => trivial

theorem yields_word (bits : Nat) (title : String) : Yields (readWord bits title) (· < powerOfTwo bits) := by
  intro cs n rest h
  unfold readWord at h
  obtain ⟨⟨c, ds⟩, -, h⟩ := ok_of_bind h
  dsimp only at h
  split at h
  · obtain ⟨⟨numeric, ds⟩, -, h⟩ := ok_of_bind h
    cases numeric with
    | natural m =>
      dsimp only at h
      split at h
      · next hm =>
        cases h
        exact hm
      · cases h
    | negative m => cases h
    | decimal text => cases h
  · cases h

theorem yields_option (h : Yields item P) : Yields (readOption item) fun x? => ∀ x ∈ x?, P x := by
  intro cs x? rest hread
  unfold readOption at hread
  obtain ⟨⟨c, ds⟩, -, hread⟩ := ok_of_bind hread
  dsimp only at hread
  split at hread
  · obtain ⟨ds, -, hread⟩ := ok_of_bind hread
    cases hread
    exact fun x hx => absurd hx (Option.not_mem_none x)
  · obtain ⟨⟨x, ds⟩, hx, hread⟩ := ok_of_bind hread
    cases hread
    rintro y ⟨⟩
    exact h _ _ _ hx

theorem yields_list (h : Yields item P) : Yields (readList item) fun xs => ∀ x ∈ xs, P x := by
  have hitems : ∀ (bound : List Char) (done : List α) (isFirst : Bool) (cs : List Char) (xs : List α)
      (rest : List Char), readItems item bound done isFirst cs = .ok (xs, rest) → (∀ x ∈ done, P x) →
      ∀ x ∈ xs, P x := by
    intro bound
    induction bound with
    | nil => exact fun _ _ _ _ _ hread => nomatch hread
    | cons b bound ih =>
      intro done isFirst cs xs rest hread hdone
      rw [readItems] at hread
      obtain ⟨more?, -, hread⟩ := ok_of_bind hread
      cases more? with
      | none =>
        obtain ⟨ds, -, hread⟩ := ok_of_bind hread
        cases hread
        exact fun x hx => hdone x (List.mem_reverse.mp hx)
      | some ds =>
        obtain ⟨⟨x, ds⟩, hx, hread⟩ := ok_of_bind hread
        exact ih _ _ _ _ _ hread (List.forall_mem_cons.mpr ⟨h _ _ _ hx, hdone⟩)
  intro cs xs rest hread
  unfold readList at hread
  obtain ⟨⟨c, ds⟩, -, hread⟩ := ok_of_bind hread
  dsimp only at hread
  split at hread
  · exact hitems _ _ _ _ _ _ hread fun x hx => absurd hx List.not_mem_nil
  · cases hread

theorem yields_pair {first : Reader α} {second : Reader β} {Q : β → Prop} (hfirst : Yields first P)
    (hsecond : Yields second Q) : Yields (readPair first second) fun p => P p.1 ∧ Q p.2 := by
  intro cs p rest hread
  unfold readPair at hread
  obtain ⟨⟨c, ds⟩, -, hread⟩ := ok_of_bind hread
  dsimp only at hread
  split at hread
  · obtain ⟨more?, -, hread⟩ := ok_of_bind hread
    cases more? with
    | none => cases hread
    | some ds =>
      obtain ⟨⟨a, ds⟩, ha, hread⟩ := ok_of_bind hread
      obtain ⟨more?, -, hread⟩ := ok_of_bind hread
      cases more? with
      | none => cases hread
      | some ds =>
        obtain ⟨⟨b, ds⟩, hb, hread⟩ := ok_of_bind hread
        obtain ⟨ds, -, hread⟩ := ok_of_bind hread
        cases hread
        exact ⟨hfirst _ _ _ ha, hsecond _ _ _ hb⟩
  · cases hread

theorem yields_make {name : String} {required : Bool} {store : β → α → β} {r : β} {Q : β → Prop}
    (h : Yields item P) (hstore : ∀ x, P x → Q (store r x)) :
    Yields ((RecordField.make name required item store).update r) Q := by
  intro cs r' rest hread
  obtain ⟨⟨x, ds⟩, hx, hread⟩ := ok_of_bind hread
  cases hread
  exact hstore x (h _ _ _ hx)

section
variable {fields : List (RecordField α)} {blank : α}

theorem yields_fields (hfields : ∀ f ∈ fields, ∀ r, I r → Yields (f.update r) I) (bound : List Char) :
    ∀ seen r isFirst, I r → Yields (readFields fields bound seen r isFirst) fun p => I p.2 := by
  induction bound with
  | nil => exact fun _ _ _ _ _ _ _ hread => nomatch hread
  | cons b bound ih =>
    intro seen r isFirst hr cs p rest hread
    rw [readFields] at hread
    obtain ⟨key?, -, hread⟩ := ok_of_bind hread
    cases key? with
    | none =>
      obtain ⟨⟨c, ds⟩, -, hread⟩ := ok_of_bind hread
      cases hread
      exact hr
    | some ds =>
      obtain ⟨⟨key, ds⟩, -, hread⟩ := ok_of_bind hread
      dsimp only at hread
      split at hread
      -- an unknown field leaves the record as it is
      · obtain ⟨ds, -, hread⟩ := ok_of_bind hread
        obtain ⟨ds, -, hread⟩ := ok_of_bind hread
        exact ih _ _ _ hr _ _ _ hread
      · next f hf =>
        split at hread
        · cases hread
        · obtain ⟨ds, -, hread⟩ := ok_of_bind hread
          obtain ⟨⟨r', ds⟩, hr', hread⟩ := ok_of_bind hread
          exact ih _ _ _ (hfields f (List.mem_of_find?_eq_some hf) r hr _ _ _ hr') _ _ _ hread

theorem yields_positions (expected : String) (hfields : ∀ f ∈ fields, ∀ r, I r → Yields (f.update r) I) :
    ∀ position r, I r → Yields (readPositions expected position fields r) I := by
  induction fields with
  | nil =>
    intro position r hr cs x rest hread
    obtain ⟨ds, -, hread⟩ := ok_of_bind hread
    cases hread
    exact hr
  | cons f fields ih =>
    obtain ⟨hf, hmore⟩ := List.forall_mem_cons.mp hfields
    intro position r hr cs x rest hread
    rw [readPositions] at hread
    obtain ⟨more?, -, hread⟩ := ok_of_bind hread
    cases more? with
    | none =>
      dsimp only at hread
      split at hread
      · cases hread
      · exact ih hmore _ _ hr _ _ _ hread
    | some ds =>
      obtain ⟨⟨r', ds⟩, hr', hread⟩ := ok_of_bind hread
      exact ih hmore _ _ (hf r hr _ _ _ hr') _ _ _ hread

/-- What the defaults have and every field keeps, a record has, however it is written. -/
theorem yields_record (title : String) (hblank : I blank)
    (hfields : ∀ f ∈ fields, ∀ r, I r → Yields (f.update r) I) :
    Yields (readRecord title fields blank) I := by
  intro cs x rest hread
  unfold readRecord at hread
  obtain ⟨⟨c, ds⟩, -, hread⟩ := ok_of_bind hread
  dsimp only at hread
  split at hread
  · obtain ⟨⟨⟨seen, r⟩, ds⟩, hr, hread⟩ := ok_of_bind hread
    dsimp only at hread
    split at hread
    · cases hread
    · cases hread
      exact yields_fields hfields _ _ _ _ hblank _ _ _ hr
  · split at hread
    · exact yields_positions _ hfields _ _ hblank _ _ _ hread
    · cases hread

end

theorem yields_document {text : String} (h : Yields item P) (hread : readDocument item text = .ok x) : P x := by
  unfold readDocument at hread
  obtain ⟨⟨y, ds⟩, hy, hread⟩ := ok_of_bind hread
  dsimp only at hread
  split at hread
  · cases hread
    exact h _ _ _ hy
  · cases hread

end HeapRetention.Json
