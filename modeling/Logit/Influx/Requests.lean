import Logit.Influx.Allocate

namespace Logit.Influx

open ByteCodec List Option

variable {X : Externals}

/-- What the encoder has written, without its counters. -/
structure Page where
  series : Bytes → NextFree
  buf : Bytes
  lines : List Point

def Page.start : Page := ⟨fun _ _ => none, [], []⟩

/-- Writes a point at the next free instant of its series, if there is one. -/
def Page.write (N : FloatText) (g : Page) (p : Point) : Page :=
  match allocateTimestamp (g.series p.series) p.timestamp with
  | none => g
  | some (timestamp, nextFree) =>
    let p' := { p with timestamp }
    { series := fun key => if key = p.series then nextFree else g.series key
      buf := g.buf ++ (p'.text N ++ [newline])
      lines := g.lines ++ [p'] }

def Ctx.page (c : Ctx) : Page := ⟨c.series, c.buf, c.lines⟩

variable (R : Rendering X)

def recordPoint (tags : Tags) (timestamp : Int64) (metric : MetricRecord X) : Option Point :=
  if isNoRecordedValue metric then none
  else
    match renderFields R metric.kind, measurementOk (X.resolve metric.name) 1 with
    | .ok (some (fields, _)), .ok () => some ⟨false, X.resolve metric.name, tags, fields, timestamp⟩
    | _, _ => none

/-- The line that a carrier event's gathered fields ask for. -/
def carrierPoint (tags : Tags) (measurement : String) (timestamp : Int64) (g : Gathered) : Option Point :=
  if g.written = 0 then none
  else
    match measurementOk measurement g.written with
    | .ok () => some ⟨true, measurement, tags, g.fields, timestamp⟩
    | .error _ => none

/-- The line of a record that is not a field of its event's carrier line. -/
def mismatchPoint (tags : Tags) (measurement : String) (timestamp : Int64)
    (metric : MetricRecord X) : Option Point :=
  if isNoRecordedValue metric || (carrierField metric measurement).isSome then none
  else recordPoint R tags timestamp metric

/-- The lines that an event asks for, at its own timestamp each. -/
def eventPoints (resource : Resource X) (event : Event X) : List Point :=
  let tags := (renderTagSuffix R.toFloatText (merged resource event)).2
  match carrierMeasurement event with
  | none => event.metrics.filterMap (recordPoint R tags event.timestamp)
  | some measurement =>
    (carrierPoint tags measurement event.timestamp (gather event measurement)).toList ++
      event.metrics.filterMap (mismatchPoint R tags measurement event.timestamp)

/-- The lines that a batch asks for, in the order the encoder comes to them. -/
def batchPoints (batch : EventBatch X) : List Point :=
  batch.events.flatMap (eventPoints R batch.resource)

@[simp]
theorem page_count (c : Ctx) (counters : List Counter) : (c.count counters).page = c.page := rfl

theorem finishLine_page (N : FloatText) (c : Ctx) (p : Point) (fields : Nat) :
    (c.finishLine N p fields).2.page = c.page.write N p := by
  simp only [Ctx.finishLine, Page.write, Ctx.page]
  cases allocateTimestamp (c.series p.series) p.timestamp with
  | none => rfl
  | some taken => rfl

variable (R : Rendering X)

theorem encodeRecordLine_page (c : Ctx) (tags : Tags) (metric : MetricRecord X) (timestamp : Int64) :
    (c.encodeRecordLine R tags metric timestamp).page =
      (recordPoint R tags timestamp metric).toList.foldl (Page.write R.toFloatText) c.page := by
  rw [Ctx.encodeRecordLine, recordPoint]
  split
  · rfl
  cases rendered : renderFields R metric.kind with
  | error skip => rfl
  | ok result =>
    cases result with
    | none => rfl
    | some result =>
      cases leads : measurementOk (X.resolve metric.name) 1 with
      | error counts => rfl
      | ok _ =>
        have page := finishLine_page R.toFloatText c ⟨false, X.resolve metric.name, tags, result.1, timestamp⟩ 1
        simp only [toList_some, foldl_cons]
        rw [← page]
        split <;> rename_i finished <;> simp [finished]

theorem writeCarrier_page (c : Ctx) (tags : Tags) (measurement : String) (timestamp : Int64) (g : Gathered) :
    (c.writeCarrier R tags measurement timestamp g).page =
      (carrierPoint tags measurement timestamp g).toList.foldl (Page.write R.toFloatText) c.page := by
  rw [Ctx.writeCarrier, carrierPoint]
  split
  · rfl
  cases leads : measurementOk measurement g.written with
  | error counts => rfl
  | ok _ =>
    have page := finishLine_page R.toFloatText (c.count g.counts)
      ⟨true, measurement, tags, g.fields, timestamp⟩ g.written
    simp only [toList_some, foldl_cons]
    rw [page_count] at page
    rw [← page]
    split <;> rename_i finished <;> simp [finished]

theorem encodeMismatch_page (tags : Tags) (measurement : String) (timestamp : Int64) (c : Ctx)
    (metric : MetricRecord X) : (c.encodeMismatch R tags measurement timestamp metric).page =
      (mismatchPoint R tags measurement timestamp metric).toList.foldl (Page.write R.toFloatText) c.page := by
  rw [Ctx.encodeMismatch, mismatchPoint]
  split
  · rfl
  · rw [encodeRecordLine_page, page_count]

/-- A fold whose steps write what each element asks for writes what they all ask for. -/
theorem foldl_page {α : Type*} (N : FloatText) {step : Ctx → α → Ctx} {asks : α → List Point}
    (page : ∀ c a, (step c a).page = (asks a).foldl (Page.write N) c.page) (elements : List α) (c : Ctx) :
    (elements.foldl step c).page = (elements.flatMap asks).foldl (Page.write N) c.page := by
  induction elements generalizing c with
  | nil => rfl
  | cons a elements ih => rw [foldl_cons, ih, page, flatMap_cons, foldl_append]

theorem filterMap_eq_flatMap {α β : Type*} (f : α → Option β) (elements : List α) :
    elements.filterMap f = elements.flatMap fun a => (f a).toList := by
  induction elements with
  | nil => rfl
  | cons a elements ih =>
    rw [flatMap_cons, ← ih]
    cases found : f a with
    | none => rw [filterMap_cons_none found]; rfl
    | some b => rw [filterMap_cons_some found]; rfl

theorem encodeEvent_page (resource : Resource X) (c : Ctx) (event : Event X) :
    (c.encodeEvent R resource event).page =
      (eventPoints R resource event).foldl (Page.write R.toFloatText) c.page := by
  rw [Ctx.encodeEvent, eventPoints]
  cases carried : carrierMeasurement event with
  | none =>
    simp only
    split
    · rename_i none
      rw [isEmpty_iff.mp none]
      rfl
    · rw [filterMap_eq_flatMap, foldl_page R.toFloatText (fun c metric => encodeRecordLine_page R c _ metric _)]
      rfl
  | some measurement =>
    simp only [Ctx.encodeCarrierEvent]
    rw [filterMap_eq_flatMap, foldl_page R.toFloatText (encodeMismatch_page R _ measurement _), writeCarrier_page,
      foldl_append]
    rfl

theorem encode_page (batch : EventBatch X) :
    (encode R batch).page = (batchPoints R batch).foldl (Page.write R.toFloatText) .start :=
  foldl_page R.toFloatText (encodeEvent_page R batch.resource) batch.events .start

end Logit.Influx
