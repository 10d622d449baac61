/-!
A text of lines that keeps only the first few and says at its end how many it dropped.
-/

namespace HeapRetention.Text

/-- Keeps the first `limit` lines; `count` is the number of lines offered. -/
structure HeadBuffer where
  limit : Nat
  count : Nat := 0
  kept : String := ""
  deriving Repr

/-- Offers one more line. -/
def HeadBuffer.line (b : HeadBuffer) (text : String) : HeadBuffer :=
  if b.count < b.limit then { b with count := b.count + 1, kept := b.kept ++ text ++ "\n" }
  else { b with count := b.count + 1 }

/-- The line that stands for dropped ones, if there are any. -/
def removalNote (dropped : Nat) : String :=
  if dropped = 0 then "" else "[...removed " ++ toString dropped ++ " lines...]\n"

/-- The kept lines and the number of dropped ones. -/
def HeadBuffer.text (b : HeadBuffer) : String :=
  b.kept ++ removalNote (b.count - b.limit)

/-- The text of items of which only the first few are written, one a line. -/
def headText (limit : Nat) (write : α → String) (items : List α) : String :=
  (items.take limit).foldl (fun text item => text ++ write item ++ "\n") "" ++
    removalNote (items.length - limit)

@[simp]
theorem HeadBuffer.count_line (b : HeadBuffer) (text : String) : (b.line text).count = b.count + 1 := by
  unfold HeadBuffer.line
  split <;> rfl

@[simp]
theorem HeadBuffer.limit_line (b : HeadBuffer) (text : String) : (b.line text).limit = b.limit := by
  unfold HeadBuffer.line
  split <;> rfl

theorem HeadBuffer.count_foldl (b : HeadBuffer) (lines : List String) :
    (lines.foldl HeadBuffer.line b).count = b.count + lines.length := by
  induction lines generalizing b with
  | nil => rfl
  | cons text lines ih =>
    rw [List.foldl_cons, ih, HeadBuffer.count_line, List.length_cons, Nat.add_assoc, Nat.add_comm 1]

theorem HeadBuffer.limit_foldl (b : HeadBuffer) (lines : List String) :
    (lines.foldl HeadBuffer.line b).limit = b.limit := by
  induction lines generalizing b with
  | nil => rfl
  | cons text lines ih => rw [List.foldl_cons, ih, HeadBuffer.limit_line]

theorem HeadBuffer.kept_foldl (b : HeadBuffer) (lines : List String) :
    (lines.foldl HeadBuffer.line b).kept =
      (lines.take (b.limit - b.count)).foldl (fun text item => text ++ item ++ "\n") b.kept := by
  induction lines generalizing b with
  | nil => rw [List.take_nil]; rfl
  | cons text lines ih =>
    rw [List.foldl_cons, ih, HeadBuffer.limit_line, HeadBuffer.count_line]
    by_cases h : b.count < b.limit
    · have hs : b.limit - b.count = (b.limit - (b.count + 1)) + 1 := by omega
      rw [hs, List.take_succ_cons, List.foldl_cons]
      simp only [HeadBuffer.line, h, if_true]
    · have hs : b.limit - b.count = 0 := by omega
      have hs' : b.limit - (b.count + 1) = 0 := by omega
      simp only [hs, hs', List.take_zero, List.foldl_nil, HeadBuffer.line, h, if_false]

/-- Offering lines one by one writes the same text as writing the first of them at once. -/
theorem HeadBuffer.text_foldl (limit : Nat) (lines : List String) :
    (lines.foldl HeadBuffer.line { limit := limit }).text = headText limit id lines := by
  rw [HeadBuffer.text, HeadBuffer.kept_foldl, HeadBuffer.count_foldl, HeadBuffer.limit_foldl, headText]
  simp only [Nat.sub_zero, Nat.zero_add, id]

end HeapRetention.Text
