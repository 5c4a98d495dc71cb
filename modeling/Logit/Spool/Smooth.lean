import Logit.Spool.Refinement

namespace Logit.Spool

open ByteCodec Native

variable {F : RecordFormat} {cfg : Config} {q q' : Queue F} {p : Push F} {h : Handle} {obs : List (Obs F)}
  {r : Reaction F}

/-- No record is to be found inside the record's bytes, nor inside a part of them. -/
def Solid (F : RecordFormat) (record : Bytes) : Prop := ∀ k m, 0 < k → ∀ v, F.parse ((record.take m).drop k) ≠ .ok v

/-- An event of a run with no I/O failure in which no push is cancelled, and each is of a solid record. -/
def Event.smooth : Event F → Prop
  | .push item => ∀ record, F.record item = .ok record → Solid F record
  | .cancel => False
  | e => e.faultless = true

/-- Nothing failed and nothing was cancelled: a repair is due only for a record that is being written. -/
structure Smooth (q : Queue F) : Prop where
  orphans : q.orphans = []
  succeeds : ∀ h, q.handle = some h → h.io ≠ .done false
  writing : q.needsRepair.isSome → ∃ p rest, q.pushing = some (p, .writing rest)
  solid : ∀ p stage, q.pushing = some (p, stage) → Solid F p.record

theorem faultless_of_smooth {e : Event F} (smooth : e.smooth) : e.faultless = true := by
  cases e with
  | cancel => exact smooth.elim
  | push item => rfl
  | _ => exact smooth

theorem Smooth.step (smooth : Smooth q) {e : Event F} (allowed : e.smooth)
    (step : q.step cfg e = some r) : Smooth r.1 := by
  have starts (item : F.Item) (record : Bytes) (push : e = .push item) (written : F.record item = .ok record) :
      Solid F record := by
    subst push
    exact allowed record written
  have kept : e ≠ .cancel := by
    rintro rfl
    exact allowed
  have turn := Turn.step smooth.solid starts (faultless_of_smooth allowed) kept step
  refine ⟨List.subset_nil.mp (smooth.orphans ▸ turn.orphans), turn.calm smooth.succeeds, fun due => ?_, turn.own⟩
  rcases turn.repair smooth.succeeds due with ⟨torn, other⟩ | writing
  · exact absurd (smooth.writing torn) other
  · exact writing

end Logit.Spool
