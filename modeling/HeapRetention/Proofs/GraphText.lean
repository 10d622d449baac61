import HeapRetention.CommandLine
import HeapRetention.Proofs.RecordText

/-! Heap graphs as texts. What is written of a graph is read as that graph, and a graph that was read from any
text is read again from what is written of it. The numbers of a record are words of the machine; reading
promises that, and writing and reading again relies on it. -/
namespace HeapRetention
open Json

/-- Words of 32 bits. -/
def WordSized (ids : List ObjectId) : Prop :=
  ∀ id ∈ ids, id < powerOfTwo 32

theorem reads_ids {ids : List ObjectId} (h : WordSized ids) :
    Reads (readList readWord32) (.ofList .number ids) ids :=
  reads_list fun id hid => reads_word (by decide) _ (h id hid)

theorem yields_ids : Yields (readList readWord32) WordSized :=
  yields_list (yields_word 32 _)

namespace GcRoot

def Sized (r : GcRoot) : Prop :=
  r.id < powerOfTwo 32

theorem reads {r : GcRoot} (h : r.Sized) : Reads reader r.toJson r :=
  reads_record _
    (.cons rfl rfl (reads_make (reads_word (by decide) _ h))
      (.cons rfl rfl (reads_make (reads_boolean _)) .nil)) rfl

theorem yields : Yields reader Sized := by
  apply yields_record
  · exact powerOfTwo_pos 32
  · simp only [fields, List.forall_mem_cons, List.not_mem_nil, false_implies, implies_true, and_true]
    exact ⟨fun r _ => yields_make (yields_word 32 _) fun _ h => h,
      fun r hr => yields_make (yields_any _) fun _ _ => hr⟩

end GcRoot

namespace ClassDefinition

structure Sized (c : ClassDefinition) : Prop where
  id : c.id < powerOfTwo 32
  objectId : c.objectId < powerOfTwo 32
  staticFields : WordSized c.staticFields
  constantFields : WordSized c.constantFields

theorem reads {c : ClassDefinition} (h : c.Sized) : Reads reader c.toJson c :=
  reads_record _
    (.cons rfl rfl (reads_make (reads_word (by decide) _ h.id))
      (.cons rfl rfl (reads_make (reads_string _))
        (.cons rfl rfl (reads_make (reads_word (by decide) _ h.objectId))
          (.cons rfl rfl (reads_make (reads_ids h.staticFields))
            (.cons rfl rfl (reads_make (reads_ids h.constantFields)) .nil))))) rfl

theorem yields : Yields reader Sized := by
  apply yields_record
  · exact ⟨powerOfTwo_pos 32, powerOfTwo_pos 32, List.forall_mem_nil _, List.forall_mem_nil _⟩
  · simp only [fields, List.forall_mem_cons, List.not_mem_nil, false_implies, implies_true, and_true]
    exact ⟨fun c hc => yields_make (yields_word 32 _) fun _ h => { hc with id := h },
      fun c hc => yields_make (yields_any _) fun _ _ => { hc with },
      fun c hc => yields_make (yields_word 32 _) fun _ h => { hc with objectId := h },
      fun c hc => yields_make yields_ids fun _ h => { hc with staticFields := h },
      fun c hc => yields_make yields_ids fun _ h => { hc with constantFields := h }⟩

end ClassDefinition

theorem ReferentStrength.reads (s : ReferentStrength) : Reads reader s.toJson s := by
  cases s with
  | soft => exact reads_choice rfl
  | weak => exact reads_choice rfl

namespace ReferentSlot

def Sized (r : ReferentSlot) : Prop :=
  r.slot < powerOfTwo 64

theorem reads {r : ReferentSlot} (h : r.Sized) : Reads reader r.toJson r :=
  reads_record _
    (.cons rfl rfl (reads_make r.strength.reads)
      (.cons rfl rfl (reads_make (reads_word (by decide) _ h)) .nil)) rfl

theorem yields : Yields reader Sized := by
  apply yields_record
  · exact powerOfTwo_pos 64
  · simp only [fields, List.forall_mem_cons, List.not_mem_nil, false_implies, implies_true, and_true]
    exact ⟨fun r hr => yields_make (yields_any _) fun _ _ => hr,
      fun r _ => yields_make (yields_word 64 _) fun _ h => h⟩

end ReferentSlot

namespace ObjectRecord

structure Sized (o : ObjectRecord) : Prop where
  classId : o.classId < powerOfTwo 32
  references : WordSized o.references
  referent : ∀ r ∈ o.referent?, r.Sized

theorem reads {o : ObjectRecord} (h : o.Sized) : Reads reader o.toJson o := by
  obtain ⟨classId, size, references, referent?⟩ := o
  obtain ⟨hclass, hreferences, hreferent⟩ := h
  have hsize : size.toNat < powerOfTwo 32 := size.toNat_lt
  -- the size comes back as the number of its word
  suffices hread : Reads reader (toJson ⟨classId, size, references, referent?⟩)
      ⟨classId, size.toNat.toUInt32, references, referent?⟩ by
    rwa [Nat.toUInt32_eq, UInt32.ofNat_toNat] at hread
  cases referent? with
  | none =>
    exact reads_record _
      (.cons rfl rfl (reads_make (reads_word (by decide) _ hclass))
        (.cons rfl rfl (reads_make (reads_word (by decide) _ hsize))
          (.cons rfl rfl (reads_make (reads_ids hreferences)) .nil))) rfl
  | some r =>
    exact reads_record _
      (.cons rfl rfl (reads_make (reads_word (by decide) _ hclass))
        (.cons rfl rfl (reads_make (reads_word (by decide) _ hsize))
          (.cons rfl rfl (reads_make (reads_ids hreferences))
            (.cons rfl rfl (reads_make (reads_some (ReferentSlot.reads (hreferent r rfl)))) .nil)))) rfl

theorem yields : Yields reader Sized := by
  apply yields_record
  · exact ⟨powerOfTwo_pos 32, List.forall_mem_nil _, fun r hr => absurd hr (Option.not_mem_none r)⟩
  · simp only [fields, List.forall_mem_cons, List.not_mem_nil, false_implies, implies_true, and_true]
    exact ⟨fun o ho => yields_make (yields_word 32 _) fun _ h => { ho with classId := h },
      fun o ho => yields_make (yields_any _) fun _ _ => { ho with },
      fun o ho => yields_make yields_ids fun _ h => { ho with references := h },
      fun o ho => yields_make (yields_option ReferentSlot.yields) fun _ h => { ho with referent := h }⟩

end ObjectRecord

namespace SyntheticTreeData

structure Sized (t : SyntheticTreeData) : Prop where
  sentinel : t.sentinel < powerOfTwo 32
  edges : ∀ e ∈ t.edges, e.1 < powerOfTwo 32 ∧ e.2 < powerOfTwo 32

theorem reads {t : SyntheticTreeData} (h : t.Sized) : Reads reader t.toJson t := by
  have hedges : Reads (readList (readPair readWord32 readWord32))
      (.ofList (fun e => .array [.number e.1, .number e.2]) t.edges) t.edges :=
    reads_list fun e he => reads_pair (reads_word (by decide) _ (h.edges e he).1)
      (reads_word (by decide) _ (h.edges e he).2)
  exact reads_record _
    (.cons rfl rfl (reads_make (reads_word (by decide) _ h.sentinel))
      (.cons rfl rfl (reads_make hedges) .nil)) rfl

theorem yields : Yields reader Sized := by
  apply yields_record
  · exact ⟨powerOfTwo_pos 32, List.forall_mem_nil _⟩
  · simp only [fields, List.forall_mem_cons, List.not_mem_nil, false_implies, implies_true, and_true]
    exact ⟨fun t ht => yields_make (yields_word 32 _) fun _ h => { ht with sentinel := h },
      fun t ht => yields_make (yields_list (yields_pair (yields_word 32 _) (yields_word 32 _)))
        fun _ h => { ht with edges := h }⟩

end SyntheticTreeData

namespace HeapGraphData

/-- The numbers of a graph are words of the machine: slots of 64 bits, all others of 32. -/
structure Sized (g : HeapGraphData) : Prop where
  classes : ∀ c ∈ g.classes, c.Sized
  objects : ∀ o ∈ g.objects, o.Sized
  roots : ∀ r ∈ g.roots, r.Sized
  syntheticTree : ∀ t ∈ g.syntheticTree?, t.Sized

theorem reads {g : HeapGraphData} (h : g.Sized) : Reads reader g.toJson g := by
  have hclasses : Reads (readList ClassDefinition.reader) (.ofList ClassDefinition.toJson g.classes) g.classes :=
    reads_list fun c hc => ClassDefinition.reads (h.classes c hc)
  have hobjects : Reads (readList ObjectRecord.reader) (.ofList ObjectRecord.toJson g.objects) g.objects :=
    reads_list fun o ho => ObjectRecord.reads (h.objects o ho)
  have hroots : Reads (readList GcRoot.reader) (.ofList GcRoot.toJson g.roots) g.roots :=
    reads_list fun r hr => GcRoot.reads (h.roots r hr)
  have htree := h.syntheticTree
  obtain ⟨classes, objects, roots, syntheticTree?⟩ := g
  cases syntheticTree? with
  | none =>
    exact reads_record _
      (.cons rfl rfl (reads_make hclasses)
        (.cons rfl rfl (reads_make hobjects)
          (.cons rfl rfl (reads_make hroots) .nil))) rfl
  | some t =>
    exact reads_record _
      (.cons rfl rfl (reads_make hclasses)
        (.cons rfl rfl (reads_make hobjects)
          (.cons rfl rfl (reads_make hroots)
            (.cons rfl rfl (reads_make (reads_some (SyntheticTreeData.reads (htree t rfl)))) .nil)))) rfl

theorem yields : Yields reader Sized := by
  apply yields_record
  · exact ⟨List.forall_mem_nil _, List.forall_mem_nil _, List.forall_mem_nil _,
      fun t ht => absurd ht (Option.not_mem_none t)⟩
  · simp only [fields, List.forall_mem_cons, List.not_mem_nil, false_implies, implies_true, and_true]
    exact ⟨fun g hg => yields_make (yields_list ClassDefinition.yields) fun _ h => { hg with classes := h },
      fun g hg => yields_make (yields_list ObjectRecord.yields) fun _ h => { hg with objects := h },
      fun g hg => yields_make (yields_list GcRoot.yields) fun _ h => { hg with roots := h },
      fun g hg => yields_make (yields_option SyntheticTreeData.yields) fun _ h => { hg with syntheticTree := h }⟩

theorem ofText_spelled {g : HeapGraphData} {text : String} (h : g.Sized) (ht : g.toJson.SpelledBy text) :
    ofText text = .ok g :=
  readDocument_spelled (reads h) ht

end HeapGraphData

/-- Graphs go through texts unchanged. However the JSON of a graph is spelled, be it on one line or indented,
that text is read as the same graph and so makes the same heap, or fails as the records do. A graph that was
read from any text at all, fields left out, unknown ones or arrays for records among it, is read again from
what is written of it. -/
theorem graphText_roundTrip :
    (∀ g : HeapGraphData, g.Sized → ∀ text, g.toJson.SpelledBy text →
      HeapGraphData.ofText text = .ok g ∧ Program.graphOfText text = HeapGraph.ofData g) ∧
    (∀ g : HeapGraphData, g.toJson.SpelledBy g.toJson.render ∧ g.toJson.SpelledBy g.toJson.renderPretty) ∧
    ∀ text g, HeapGraphData.ofText text = .ok g →
      g.Sized ∧ HeapGraphData.ofText g.toJson.render = .ok g ∧
        HeapGraphData.ofText g.toJson.renderPretty = .ok g := by
  refine ⟨fun g hg text htext => ?_, fun g => ⟨g.toJson.spelledBy_render, g.toJson.spelledBy_renderPretty⟩,
    fun text g hread => ?_⟩
  · have hread := HeapGraphData.ofText_spelled hg htext
    refine ⟨hread, ?_⟩
    unfold Program.graphOfText
    rw [hread]
    rfl
  · have hg : g.Sized := yields_document HeapGraphData.yields hread
    exact ⟨hg, HeapGraphData.ofText_spelled hg g.toJson.spelledBy_render,
      HeapGraphData.ofText_spelled hg g.toJson.spelledBy_renderPretty⟩

/-- A graph with the largest words, a name that has to be escaped, and every kind of record. -/
def markedGraph : HeapGraphData where
  classes := [{ id := 7, name := "\x01\t\"A\"", staticFields := [2] }]
  objects := [
    { classId := 1, size := 4294967295, references := [4294967295, 0]
      referent? := some ⟨.weak, 18446744073709551615⟩ },
    { classId := 1, size := 0 }]
  roots := [⟨1, true⟩]
  syntheticTree? := some { sentinel := 2, edges := [(2, 1)] }

/-- A text with an unknown field and a record that is written as an array. -/
def looseText : String :=
  "\x7b\"extra\": [null], \"classes\": [[3, \"A\"]], \"objects\": [\x7b\"size\": 8, \"class\": 1\x7d]\x7d"

set_option maxRecDepth 10000 in
theorem graphText_roundTrip_markedGraph : markedGraph.Sized ∧
    markedGraph.toJson.SpelledBy markedGraph.toJson.renderPretty ∧
    HeapGraphData.ofText markedGraph.toJson.renderPretty = .ok markedGraph ∧
    Program.graphOfText markedGraph.toJson.renderPretty = HeapGraph.ofData markedGraph ∧
    (∃ graph, HeapGraph.ofData markedGraph = .ok graph) ∧ ∃ g,
    HeapGraphData.ofText looseText = .ok g ∧ g.objects = [{ classId := 1, size := 8 }] ∧ g.Sized ∧
      HeapGraphData.ofText g.toJson.render = .ok g := by
  have hids : ∀ {ids : List ObjectId}, ids.all (· < powerOfTwo 32) = true → WordSized ids :=
    fun h id hid => of_decide_eq_true (List.all_eq_true.mp h id hid)
  have hsized : markedGraph.Sized := by
    constructor
    case classes =>
      rintro c (_ | ⟨_, ⟨⟩⟩)
      exact ⟨by decide, by decide, hids (by decide), hids (by decide)⟩
    case objects =>
      rintro o (_ | ⟨_, _ | ⟨_, ⟨⟩⟩⟩)
      · refine ⟨by decide, hids (by decide), ?_⟩
        rintro r ⟨⟩
        show _ < _
        decide
      · exact ⟨by decide, hids (by decide), fun r hr => nomatch hr⟩
    case roots =>
      rintro r (_ | ⟨_, ⟨⟩⟩)
      show _ < _
      decide
    case syntheticTree =>
      rintro t ⟨⟩
      refine ⟨by decide, ?_⟩
      rintro e (_ | ⟨_, ⟨⟩⟩)
      decide
  have hloose : (HeapGraphData.ofText looseText).toOption.any
      (fun g => g.objects = [{ classId := 1, size := 8 }]) = true := by
    decide +kernel
  have hgraph : (HeapGraph.ofData markedGraph).toOption.any (fun _ => true) = true := by
    decide +kernel
  obtain ⟨hspelled, hforms, hagain⟩ := graphText_roundTrip
  obtain ⟨g, hg, hobjects⟩ := exists_ok_of_any hloose
  obtain ⟨graph, hgraph, -⟩ := exists_ok_of_any hgraph
  obtain ⟨hread, hmade⟩ := hspelled markedGraph hsized _ (hforms markedGraph).2
  obtain ⟨hsized', hsame, -⟩ := hagain looseText g hg
  exact ⟨hsized, (hforms markedGraph).2, hread, hmade, ⟨graph, hgraph⟩, g, hg, of_decide_eq_true hobjects,
    hsized', hsame⟩

end HeapRetention
