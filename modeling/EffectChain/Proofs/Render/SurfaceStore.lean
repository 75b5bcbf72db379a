import Mathlib.Data.Prod.Basic
import EffectChain.Proofs.Render.Buffers
import EffectChain.Proofs.Render.Bindings

/-!
# EffectChain.Proofs.Render.SurfaceStore

The renderer against a plain store that has one value for each surface.

In the plain store a dispatch overwrites the values of the surfaces it writes.  An
output is sampled as it was last written; a feedback is sampled as it was when the
frame started.  `executor_refines_surfaceStore` says that a renderer with two
buffers for a surface cannot be told from it: every dispatch samples, and every
frame shows, what the plain store has.

The proof carries `MirrorsFrame` through the dispatches of a frame and `Mirrors`
through the calls.
-/

namespace EffectChain

/-! ## the plain store -/

/-- A value for every surface that was part of a graph. -/
structure SurfaceStore where
  width : Int
  height : Int
  graph : Graph := {}
  passes : List LoadedPass := []
  /-- What was last written to each surface. -/
  values : Table Mark := {}
  /-- The number of the next dispatch. -/
  serial : Nat := 0
  shots : List Shot := []

/-- A call that loads a graph or renders a frame. -/
inductive Executor.Call where
  | load (graph : Graph) (alloc : Option Graph.Allocation)
  | frame (state : FrameState)

namespace SurfaceStore

/-- A store without surfaces. -/
def start (width height : Int) : SurfaceStore :=
  { width := (Executor.sizeOr width height).1, height := (Executor.sizeOr width height).2 }

/-- Adds the surfaces of a graph.  Those that are there keep their values. -/
def load (s : SurfaceStore) (g : Graph) : SurfaceStore :=
  match g.passes.mapM LoadedPass.read with
  | .error _ => s
  | .ok passes =>
    { s with
      graph := g
      passes
      values := g.surfaces.foldl (fun t id => if t.contains id then t else t.insert id .blank)
        s.values }

/-- What a dispatch samples of surfaces: a feedback as it was kept, any other as it is. -/
def samples (s : SurfaceStore) (kept : Table Mark) (inputs : Table String) : Table Mark :=
  (inputs.filter fun _ id => s.values.contains id).map fun _ id =>
    if Graph.isFeedback id then kept.getD id .blank else s.values.getD id .blank

/-- A dispatch: it samples surfaces, then overwrites those it writes. -/
def draw (kept : Table Mark) (s : SurfaceStore) (job : Job) : SurfaceStore :=
  { s with
    values := s.values.map fun id m => (painted? s.serial job.pass.outputs id).getD m
    serial := s.serial + 1
    shots := s.shots ++ [.drawn job.pass.id (s.samples kept job.pass.inputs)] }

/-- A frame: the dispatches of its schedule, then the value of the render surface is
shown. -/
def frame (s : SurfaceStore) (state : FrameState) : SurfaceStore :=
  let state :=
    if state.width = 0 || state.height = 0 then { state with width := s.width, height := s.height }
    else state
  let s := (schedule s.passes state.env).foldl (draw s.values) s
  match s.values.get? s.graph.render with
  | some m => { s with shots := s.shots ++ [.shown m] }
  | none => s

def perform (s : SurfaceStore) : Executor.Call → SurfaceStore
  | .load g _ => s.load g
  | .frame state => s.frame state

end SurfaceStore

/-- One call to a renderer. -/
def Executor.perform {β : Type} [Backend β] (e : Executor β) :
    Call → Executor β × Option RenderError
  | .load g alloc => e.load g alloc
  | .frame state => e.frame state

/-- No pass binds a surface to two of its attachments. -/
def Graph.OneAttachment (g : Graph) : Prop :=
  ∀ p ∈ g.passes, ∀ id a b, isPersistent id = true →
    p.outputs.get? a = some id → p.outputs.get? b = some id → a = b

/-- A shot of the renderer against one of the plain store: the surfaces that are
sampled, and the texture that is shown, hold the same. -/
def Shot.Agrees : Shot → Shot → Prop
  | .drawn pass samples, .drawn pass' samples' =>
    pass = pass' ∧ ∀ name m, samples'.get? name = some m → samples.get? name = some m
  | .shown m, .shown m' => m = m'
  | _, _ => False

/-! ## a frame against the store -/

/-- The buffer that holds the value of a surface within a frame. -/
def Frame.holder {β : Type} (f : Frame β) (id : String) (b : BufferPair) : String :=
  if b.isFeedback then if b.dirty then b.write else b.read else f.read.getD id ""

theorem Frame.holder_output {β : Type} {f : Frame β} {id t : String} {b : BufferPair}
    (hfb : b.isFeedback = false) (hread : f.read.get? id = some t) : f.holder id b = t := by
  rw [holder, hfb, if_neg (by simp), Table.getD_of_get? _ hread]

/-- A frame and the plain store after the same dispatches; `kept` are the values from
before the frame. -/
structure MirrorsFrame (f : Frame Canvas) (kept : Table Mark) (s : SurfaceStore) : Prop where
  tidy : Tidy f.exec.surfaces
  ready : f.current.Ready
  once : f.current.graph.OneAttachment
  /-- Every surface has its value in one of its buffers. -/
  values : ∀ id, s.values.get? id =
    (f.exec.surfaces.get? id).map fun b => f.exec.backend.mark (f.holder id b)
  /-- The buffer a feedback is read from holds the value from before the frame. -/
  kept : ∀ id b, f.exec.surfaces.get? id = some b → b.isFeedback = true →
    kept.get? id = some (f.exec.backend.mark b.read) ∧ f.written.contains id = false
  /-- Other surfaces are read from where they were written, if they were. -/
  reads : ∀ id b, f.exec.surfaces.get? id = some b → b.isFeedback = false →
    f.read.get? id = some (if f.written.contains id then b.write else b.read) ∧ b.dirty = false
  serial : f.exec.backend.serial = s.serial
  shots : List.Forall₂ Shot.Agrees f.exec.backend.shots s.shots

/-! ## one dispatch -/

section bound

variable {β : Type} {f f₁ : Frame β} {p : Graph.Pass} {outputs : Table String} {id : String}
    {b : BufferPair}

/-- Only the attachments of a surface are bound to its buffers. -/
theorem bound_to_surface (htidy : Tidy f.exec.surfaces) (hready : f.current.Ready)
    (hout : Frame.bindOutputs p.id f {} p.outputs.entries = (f₁, .ok outputs))
    (hb : f.exec.surfaces.get? id = some b) {a t : String} (ht : t = b.read ∨ t = b.write)
    (ha : outputs.get? a = some t) : p.outputs.get? a = some id := by
  obtain ⟨hp, hn⟩ := htidy id b hb
  obtain ⟨w, hw, hu⟩ := Frame.bindOutputs_source hout ha
  rw [hw]
  unfold Frame.Target at hu
  cases hs : f.exec.surfaces.get? w with
  | some c =>
      rw [hs] at hu
      by_contra hne
      have hne : w ≠ id := fun heq => hne (congrArg some heq)
      exact (htidy w c hs).2.apart hn hne hu ht rfl
  | none =>
      rw [hs] at hu
      dsimp only at hu
      rw [Frame.slot?, hready.slots, Option.bind_eq_some_iff] at hu
      obtain ⟨i, -, hi⟩ := hu
      obtain ⟨spec, rfl⟩ := slotIds_get? hi
      exact absurd rfl (hn.ne_slot hp ht i spec)

/-- A surface that is not among the outputs keeps its buffers and what they hold. -/
theorem unbound_surface (htidy : Tidy f.exec.surfaces) (hready : f.current.Ready)
    (hout : Frame.bindOutputs p.id f {} p.outputs.entries = (f₁, .ok outputs))
    (hb : f.exec.surfaces.get? id = some b) (hid : id ∉ p.outputs.values) :
    f₁.exec.surfaces.get? id = some b ∧
      ∀ serial t, t = b.read ∨ t = b.write → painted? serial outputs t = none := by
  refine ⟨(Frame.bindOutputs_unbound _ f _ _ hout hid).trans hb, fun serial t ht => ?_⟩
  rw [painted?_eq_none, Table.mem_values_iff]
  rintro ⟨a, ha⟩
  exact hid (Table.mem_values_iff.2 ⟨a, bound_to_surface htidy hready hout hb ht ha⟩)

/-- A surface is written through the buffer it has after the binding, when it has one
attachment. -/
theorem bound_attachment (htidy : Tidy f.exec.surfaces)
    (hout : Frame.bindOutputs p.id f {} p.outputs.entries = (f₁, .ok outputs))
    (honce : ∀ id a b, Graph.isPersistent id = true →
      p.outputs.get? a = some id → p.outputs.get? b = some id → a = b)
    (hb : f.exec.surfaces.get? id = some b) {a : String} (ha : p.outputs.get? a = some id) :
    outputs.get? a = some (f.turn id b).write ∧ f₁.exec.surfaces.get? id = some (f.turn id b) := by
  have hpair : p.outputs.entries.Pairwise fun x y =>
      x.2 = y.2 → f.exec.surfaces.get? x.2 = none := by
    refine p.outputs.sorted.imp_of_mem fun {x y} hx hy hlt heq => ?_
    cases hs : f.exec.surfaces.get? x.2 with
    | none => rfl
    | some c =>
        have hxa := Table.mem_entries_iff.1 (show (x.1, x.2) ∈ p.outputs.entries from hx)
        have hya := Table.mem_entries_iff.1 (show (y.1, y.2) ∈ p.outputs.entries from hy)
        rw [← heq] at hya
        have := honce x.2 x.1 y.1 (htidy x.2 c hs).1 hxa hya
        exact absurd hlt (this ▸ String.lt_irrefl _)
  exact Frame.bindOutputs_surface _ f _ _ p.outputs.sorted hpair hout
    (Table.mem_entries_iff.2 ha) hb

/-- A surface among the outputs is written through one buffer, and the other one
keeps what it holds. -/
theorem bound_surface (htidy : Tidy f.exec.surfaces) (hready : f.current.Ready)
    (hout : Frame.bindOutputs p.id f {} p.outputs.entries = (f₁, .ok outputs))
    (honce : ∀ id a b, Graph.isPersistent id = true →
      p.outputs.get? a = some id → p.outputs.get? b = some id → a = b)
    (hb : f.exec.surfaces.get? id = some b) (hid : id ∈ p.outputs.values) :
    f₁.exec.surfaces.get? id = some (f.turn id b) ∧
      ∀ serial, painted? serial outputs (f.turn id b).write = painted? serial p.outputs id ∧
        ((f.turn id b).read ≠ (f.turn id b).write →
          painted? serial outputs (f.turn id b).read = none) := by
  have hattached : ∀ a, p.outputs.get? a = some id → outputs.get? a = some (f.turn id b).write ∧
      f₁.exec.surfaces.get? id = some (f.turn id b) :=
        fun a ha => bound_attachment htidy hout honce hb ha
  have hwrite : ∀ a, p.outputs.get? a = some id → outputs.get? a = some (f.turn id b).write :=
    fun a ha => (hattached a ha).1
  obtain ⟨a, ha⟩ := Table.mem_values_iff.1 hid
  refine ⟨(hattached a ha).2, fun serial => ⟨?_, fun hne => ?_⟩⟩
  · refine painted?_congr (fun c => ⟨fun hc => ?_, hwrite c⟩) serial
    exact bound_to_surface htidy hready hout hb ((f.turn_buffers id b _).1 (.inr rfl)) hc
  · rw [painted?_eq_none, Table.mem_values_iff]
    rintro ⟨c, hc⟩
    have howner := bound_to_surface htidy hready hout hb ((f.turn_buffers id b _).1 (.inl rfl)) hc
    exact hne (Option.some.inj (hc.symm.trans (hwrite c howner)))

end bound

/-- No feedback surface is a source. -/
theorem feedback_not_source {id : String} (h : Graph.isFeedback id = true) :
    Graph.isSource id = false := by
  rw [Graph.isFeedback, String.startsWith_string_iff] at h
  rw [Graph.isSource, String.startsWith_string_eq_false_iff]
  obtain ⟨rest, hrest⟩ := h
  rw [← hrest]
  simp

section dispatch

variable {f f' : Frame Canvas} {p : Graph.Pass} {u : Table Datum} {n : Int} {id : String}
    {b : BufferPair}

/-- A dispatch adds and removes no surface. -/
theorem dispatch_contains (hd : Frame.dispatch p u f n = (f', none)) (id : String) :
    f'.exec.surfaces.contains id = f.exec.surfaces.contains id := by
  obtain ⟨d, f₁, -, hout, -, rfl⟩ := Frame.dispatch_canvas hd
  have hsame := Frame.bindOutputs_contains p.id f {} p.outputs.entries id
  rw [hout] at hsame
  rw [← hsame, Table.contains, Frame.commit_surface, Frame.surfaces_withBackend, Option.isSome_map]
  rfl

/-- A dispatch writes a feedback to the buffer that is not read. -/
theorem dispatch_feedback (htidy : Tidy f.exec.surfaces) (hready : f.current.Ready)
    (honce : ∀ id a b, Graph.isPersistent id = true →
      p.outputs.get? a = some id → p.outputs.get? b = some id → a = b)
    (hd : Frame.dispatch p u f n = (f', none)) (hb : f.exec.surfaces.get? id = some b)
    (hfb : b.isFeedback = true) :
    f'.exec.surfaces.get? id = some { b with dirty := b.dirty || decide (id ∈ p.outputs.values) } ∧
      f'.written.contains id = f.written.contains id ∧
      f'.exec.backend.mark b.read = f.exec.backend.mark b.read ∧
      f'.exec.backend.mark b.write =
        (painted? f.exec.backend.serial p.outputs id).getD (f.exec.backend.mark b.write) := by
  obtain ⟨d, f₁, -, hout, -, rfl⟩ := Frame.dispatch_canvas hd
  obtain ⟨⟨S, hS⟩, -⟩ := Frame.bindOutputs_target _ f _ _ p.outputs.sorted hout
  have hturn : f.turn id b = b := by simp [Frame.turn, hfb]
  have hne : b.read ≠ b.write := by
    obtain ⟨-, hn⟩ := htidy id b hb
    exact hn.read_ne_write (feedback_not_source (hn.isFeedback ▸ hfb))
  have hwritten : ∀ {c}, f₁.exec.surfaces.get? id = some c → c.isFeedback = true →
      ((f₁.withBackend (f.exec.backend.draw d)).commit p.outputs).written.contains id =
        f.written.contains id := by
    intro c hc hcfb
    rw [Frame.commit_feedback p.outputs (f := f₁.withBackend (f.exec.backend.draw d)) hc hcfb, hS]
    rfl
  rw [Frame.commit_surface, Frame.commit_backend, Frame.backend_withBackend,
    Frame.surfaces_withBackend, Canvas.mark_draw, Canvas.mark_draw]
  by_cases hid : id ∈ p.outputs.values
  · obtain ⟨hsurf, hpaint⟩ := bound_surface htidy hready hout honce hb hid
    obtain ⟨hwrite, hread⟩ := hpaint f.exec.backend.serial
    rw [hturn] at hsurf hwrite hread
    exact ⟨by simp [hsurf, hid, hfb], hwritten hsurf hfb, by rw [hread hne]; rfl, by rw [hwrite]⟩
  · obtain ⟨hsurf, hpaint⟩ := unbound_surface htidy hready hout hb hid
    refine ⟨by simp [hsurf, hid], hwritten hsurf hfb, by rw [hpaint _ _ (.inl rfl)]; rfl, ?_⟩
    rw [hpaint _ _ (.inr rfl), painted?_eq_none.2 hid]

/-- A dispatch that does not write a surface leaves it alone. -/
theorem dispatch_unwritten (htidy : Tidy f.exec.surfaces) (hready : f.current.Ready)
    (hd : Frame.dispatch p u f n = (f', none)) (hb : f.exec.surfaces.get? id = some b)
    (hid : id ∉ p.outputs.values) :
    f'.exec.surfaces.get? id = some b ∧
      (b.isFeedback = false → f'.read.get? id = f.read.get? id ∧
        f'.written.contains id = f.written.contains id) ∧
      ∀ t, t = b.read ∨ t = b.write → f'.exec.backend.mark t = f.exec.backend.mark t := by
  obtain ⟨d, f₁, -, hout, -, rfl⟩ := Frame.dispatch_canvas hd
  obtain ⟨⟨S, hS⟩, -⟩ := Frame.bindOutputs_target _ f _ _ p.outputs.sorted hout
  obtain ⟨hsurf, hpaint⟩ := unbound_surface htidy hready hout hb hid
  refine ⟨?_, fun hfb => ?_, fun t ht => ?_⟩
  · rw [Frame.commit_surface, Frame.surfaces_withBackend, hsurf]
    simp [hid]
  · obtain ⟨hread, hwritten⟩ :=
      Frame.commit_noted p.outputs (f := f₁.withBackend (f.exec.backend.draw d)) hsurf hfb
    rw [hread, if_neg hid, hwritten, decide_eq_false hid, Bool.false_or, hS]
    exact ⟨rfl, rfl⟩
  · rw [Frame.commit_backend, Frame.backend_withBackend, Canvas.mark_draw, hpaint _ t ht]
    rfl

/-- A dispatch writes any other surface to a buffer that is read from then on. -/
theorem dispatch_output (htidy : Tidy f.exec.surfaces) (hready : f.current.Ready)
    (honce : ∀ id a b, Graph.isPersistent id = true →
      p.outputs.get? a = some id → p.outputs.get? b = some id → a = b)
    (hd : Frame.dispatch p u f n = (f', none)) (hb : f.exec.surfaces.get? id = some b)
    (hfb : b.isFeedback = false) :
    (id ∈ p.outputs.values ∧ f'.exec.surfaces.get? id = some (f.turn id b) ∧
        f'.read.get? id = some (f.turn id b).write ∧ f'.written.contains id = true ∧
        f'.exec.backend.mark (f.turn id b).write =
          (painted? f.exec.backend.serial p.outputs id).getD .blank) ∨
      (id ∉ p.outputs.values ∧ f'.exec.surfaces.get? id = some b ∧
        f'.read.get? id = f.read.get? id ∧ f'.written.contains id = f.written.contains id ∧
        ∀ t, t = b.read ∨ t = b.write → f'.exec.backend.mark t = f.exec.backend.mark t) := by
  by_cases hid : id ∈ p.outputs.values
  · obtain ⟨d, f₁, -, hout, -, rfl⟩ := Frame.dispatch_canvas hd
    have hfbt : (f.turn id b).isFeedback = false := by
      unfold Frame.turn
      split <;> exact hfb
    rw [Frame.commit_surface, Frame.commit_backend, Frame.backend_withBackend,
      Frame.surfaces_withBackend]
    obtain ⟨hsurf, hpaint⟩ := bound_surface htidy hready hout honce hb hid
    obtain ⟨hread, hwritten⟩ :=
      Frame.commit_noted p.outputs (f := f₁.withBackend (f.exec.backend.draw d)) hsurf hfbt
    obtain ⟨a, ha⟩ := painted?_of_mem hid f.exec.backend.serial
    refine .inl ⟨hid, by simp [hsurf, hfbt], by simp [hread, hid], by simp [hwritten, hid], ?_⟩
    rw [Canvas.mark_draw, (hpaint _).1, ha]
    rfl
  · obtain ⟨hsurf, hnoted, hmark⟩ := dispatch_unwritten htidy hready hd hb hid
    exact .inr ⟨hid, hsurf, (hnoted hfb).1, (hnoted hfb).2, hmark⟩

/-- The value of a feedback after a dispatch is in the buffer that was written. -/
theorem feedback_value (htidy : Tidy f.exec.surfaces) (hready : f.current.Ready)
    (honce : ∀ id a b, Graph.isPersistent id = true →
      p.outputs.get? a = some id → p.outputs.get? b = some id → a = b)
    (hd : Frame.dispatch p u f n = (f', none)) (hb : f.exec.surfaces.get? id = some b)
    (hfb : b.isFeedback = true) :
    some ((painted? f.exec.backend.serial p.outputs id).getD
      (f.exec.backend.mark (f.holder id b))) =
      (f'.exec.surfaces.get? id).map fun b => f'.exec.backend.mark (f'.holder id b) := by
  obtain ⟨hnew, -, hread, hwrite⟩ := dispatch_feedback htidy hready honce hd hb hfb
  have hfb' : ∀ dirty, ({ b with dirty } : BufferPair).isFeedback = true := fun _ => hfb
  rw [hnew, Option.map_some, Option.some.injEq]
  by_cases hid : id ∈ p.outputs.values
  · obtain ⟨a, ha⟩ := painted?_of_mem hid f.exec.backend.serial
    have hholder : f'.holder id { b with dirty := b.dirty || decide (id ∈ p.outputs.values) } =
        b.write := by
      simp [Frame.holder, hfb', hid]
    rw [hholder, hwrite, ha]
    rfl
  · have hnone : painted? f.exec.backend.serial p.outputs id = none := painted?_eq_none.2 hid
    rw [hnone] at hwrite ⊢
    unfold Frame.holder
    rw [hfb, hfb']
    cases hdirty : b.dirty with
    | true => simp [hwrite]
    | false => simp [hid, hread]

/-- The value of any other surface after a dispatch is in the buffer it is read from. -/
theorem output_value (htidy : Tidy f.exec.surfaces) (hready : f.current.Ready)
    (honce : ∀ id a b, Graph.isPersistent id = true →
      p.outputs.get? a = some id → p.outputs.get? b = some id → a = b)
    (hd : Frame.dispatch p u f n = (f', none)) (hb : f.exec.surfaces.get? id = some b)
    (hfb : b.isFeedback = false)
    (hread : f.read.get? id = some (if f.written.contains id then b.write else b.read)) :
    some ((painted? f.exec.backend.serial p.outputs id).getD
      (f.exec.backend.mark (f.holder id b))) =
      (f'.exec.surfaces.get? id).map fun b => f'.exec.backend.mark (f'.holder id b) := by
  rcases dispatch_output htidy hready honce hd hb hfb with
    ⟨hid, hnew, hread', -, hmark⟩ | ⟨hid, hnew, hread', -, hmark⟩
  · have hfbt : (f.turn id b).isFeedback = false := by
      unfold Frame.turn
      split <;> exact hfb
    obtain ⟨a, ha⟩ := painted?_of_mem hid f.exec.backend.serial
    rw [hnew, Option.map_some, Frame.holder_output hfbt hread', hmark, ha]
    rfl
  · have hnone : painted? f.exec.backend.serial p.outputs id = none := painted?_eq_none.2 hid
    rw [hnew, Option.map_some, hnone, Frame.holder_output hfb (hread'.trans hread),
      Frame.holder_output hfb hread, hmark]
    · rfl
    · split
      · exact .inr rfl
      · exact .inl rfl

/-- A dispatch samples surfaces from where the plain store has them. -/
theorem MirrorsFrame.samples {kept : Table Mark} {s : SurfaceStore} (h : MirrorsFrame f kept s)
    {inputs bound : Table String} {pass : String} (hin : f.bindInputs pass inputs = .ok bound)
    {name : String} {m : Mark} (hm : (s.samples kept inputs).get? name = some m) :
    (bound.map fun _ t => f.exec.backend.mark t).get? name = some m := by
  simp only [SurfaceStore.samples, Table.get?_map, Option.map_eq_some_iff] at hm ⊢
  obtain ⟨id, hid, rfl⟩ := hm
  rw [Table.get?_filter, Option.filter_eq_some_iff] at hid
  obtain ⟨hname, hknown⟩ := hid
  obtain ⟨t, hread, hget⟩ := Frame.bindInputs_get? hin hname
  refine ⟨t, hget, ?_⟩
  have hvalue := h.values id
  obtain ⟨v, hv⟩ := Table.contains_iff.1 hknown
  rw [hv] at hvalue
  obtain ⟨b, hb, hmark⟩ := Option.map_eq_some_iff.1 hvalue.symm
  obtain ⟨hp, hn⟩ := h.tidy id b hb
  rw [Frame.bindRead_surface hb] at hread
  obtain rfl := Except.ok.inj hread
  cases hfb : b.isFeedback with
  | true =>
      obtain ⟨hkept, -⟩ := h.kept id b hb hfb
      simp [← hn.isFeedback, hfb, Table.getD, hkept]
  | false =>
      have hholder : f.holder id b = f.read.getD id "" := by simp [Frame.holder, hfb]
      rw [← hn.isFeedback, hfb, if_neg (by simp), if_neg (by simp), ← hholder, hmark,
        Table.getD_of_get? _ hv]

/-- One dispatch keeps the frame and the plain store alike. -/
theorem MirrorsFrame.dispatch {kept : Table Mark} {s : SurfaceStore} (h : MirrorsFrame f kept s)
    {job : Job} (hjob : job.pass ∈ f.current.graph.passes)
    (hd : Frame.dispatch job.pass u f n = (f', none)) :
    MirrorsFrame f' kept (s.draw kept job) := by
  have honce := h.once job.pass hjob
  have hcurrent : f'.current = f.current := (Frame.dispatch_same hd).current
  have hkeeps : (Frame.dispatch job.pass u f n).1.Keeps f.exec.current :=
    Frame.Keeps.dispatch job.pass u f n ⟨h.tidy, rfl⟩
  rw [hd] at hkeeps
  -- every surface of the frame after the dispatch was there before it
  have hold : ∀ {id b'}, f'.exec.surfaces.get? id = some b' →
      ∃ b, f.exec.surfaces.get? id = some b ∧ b'.isFeedback = b.isFeedback := by
    intro id b' hb'
    have hcontains := (dispatch_contains hd id).symm.trans (Table.contains_iff.2 ⟨b', hb'⟩)
    obtain ⟨b, hb⟩ := Table.contains_iff.1 hcontains
    exact ⟨b, hb, by rw [(hkeeps.1 id b' hb').2.isFeedback, (h.tidy id b hb).2.isFeedback]⟩
  refine ⟨hkeeps.1, hcurrent ▸ h.ready, hcurrent ▸ h.once, ?_, ?_, ?_, ?_, ?_⟩
  · intro id
    rw [SurfaceStore.draw, Table.get?_map, h.values id, ← h.serial]
    cases hb : f.exec.surfaces.get? id with
    | none =>
        cases hb' : f'.exec.surfaces.get? id with
        | none => rfl
        | some b' =>
            obtain ⟨b, hb'', -⟩ := hold hb'
            simp [hb] at hb''
    | some b =>
        cases hfb : b.isFeedback with
        | true => exact feedback_value h.tidy h.ready honce hd hb hfb
        | false => exact output_value h.tidy h.ready honce hd hb hfb (h.reads id b hb hfb).1
  · intro id b' hb' hfb'
    obtain ⟨b, hb, hsame⟩ := hold hb'
    have hfb : b.isFeedback = true := hsame ▸ hfb'
    obtain ⟨hnew, hwritten, hread, -⟩ := dispatch_feedback h.tidy h.ready honce hd hb hfb
    obtain rfl := Option.some.inj (hb'.symm.trans hnew)
    obtain ⟨hkept, hnot⟩ := h.kept id b hb hfb
    exact ⟨by rw [hkept, ← hread], hwritten.trans hnot⟩
  · intro id b' hb' hfb'
    obtain ⟨b, hb, hsame⟩ := hold hb'
    rcases dispatch_output h.tidy h.ready honce hd hb (hsame ▸ hfb') with
      ⟨-, hnew, hread, hwritten, -⟩ | ⟨-, hnew, hread, hwritten, -⟩
    · obtain rfl := Option.some.inj (hb'.symm.trans hnew)
      refine ⟨by simp [hread, hwritten], ?_⟩
      rw [← (h.reads id b hb (hsame ▸ hfb')).2]
      unfold Frame.turn
      split <;> rfl
    · obtain rfl := Option.some.inj (hb'.symm.trans hnew)
      rw [hread, hwritten]
      exact h.reads id b' hb (hsame ▸ hfb')
  · rw [Frame.serial_dispatch hd, h.serial]
    rfl
  · obtain ⟨d, f₁, hin, -, hpass, rfl⟩ := Frame.dispatch_canvas hd
    rw [Frame.commit_backend, Frame.backend_withBackend]
    refine List.rel_append h.shots (.cons ⟨hpass, fun name m hm => ?_⟩ .nil)
    exact h.samples hin hm

end dispatch

/-- The dispatches of a frame keep the frame and the plain store alike. -/
theorem MirrorsFrame.performs {f f' : Frame Canvas} {js : List Job} (hp : Performs f js f')
    {kept : Table Mark} {s : SurfaceStore} (h : MirrorsFrame f kept s)
    (hjs : ∀ j ∈ js, j.pass ∈ f.current.graph.passes) :
    MirrorsFrame f' kept (js.foldl (SurfaceStore.draw kept) s) := by
  induction hp generalizing s with
  | nil f => exact h
  | @cons f f' f'' j js u n first rest ih =>
      have hcurrent : f'.current = f.current := (Frame.dispatch_same first).current
      refine ih (h.dispatch (hjs j List.mem_cons_self) first) ?_
      rw [hcurrent]
      exact fun a ha => hjs a (List.mem_cons_of_mem j ha)

/-! ## the end of a frame -/

/-- The renderer apart from its surfaces and the contents of its textures. -/
def Executor.SameRest (e e' : Executor Canvas) : Prop :=
  e'.width = e.width ∧ e'.height = e.height ∧ e'.current = e.current ∧
    e'.backend.serial = e.backend.serial ∧ e'.backend.shots = e.backend.shots

/-- Settling copies what was written to a feedback to where it is read, and touches no
other surface. -/
theorem settle_canvas (bs : List BufferPair) {e : Executor Canvas} (htidy : Tidy e.surfaces)
    (hbs : ∀ b ∈ bs, e.surfaces.get? b.id = some b) (hnodup : (bs.map (·.id)).Nodup) :
    ∃ e', runList Frame.settle e bs = (e', none) ∧ e.SameRest e' ∧
      (∀ id, e.surfaces.get? id = none → e'.surfaces.get? id = none) ∧
      ∀ id b, e.surfaces.get? id = some b →
        (b ∈ bs → e'.surfaces.get? id = some { b with dirty := false } ∧
          e'.backend.mark b.read = e.backend.mark b.write) ∧
        (b ∉ bs → e'.surfaces.get? id = some b ∧
          ∀ t, t = b.read ∨ t = b.write → e'.backend.mark t = e.backend.mark t) := by
  induction bs generalizing e with
  | nil => exact ⟨e, rfl, ⟨rfl, rfl, rfl, rfl, rfl⟩, fun _ h => h, fun id b hb => by simp [hb]⟩
  | cons b₀ bs ih =>
      obtain ⟨hnot, hnodup⟩ := List.nodup_cons.1 hnodup
      have hb₀ := hbs b₀ List.mem_cons_self
      obtain ⟨hp₀, hn₀⟩ := htidy b₀.id b₀ hb₀
      -- the renderer after the first feedback is settled
      generalize he₁ : ({ e with
        backend := e.backend.put b₀.read (e.backend.mark b₀.write)
        surfaces := e.surfaces.insert b₀.id { b₀ with dirty := false } } : Executor Canvas) = e₁
      have hget : ∀ id, e₁.surfaces.get? id =
          if id = b₀.id then some { b₀ with dirty := false } else e.surfaces.get? id := by
        intro id
        rw [← he₁]
        exact Table.get?_insert _ _ _ _
      have hmark : ∀ t, e₁.backend.mark t = if t = b₀.read then e.backend.mark b₀.write
          else e.backend.mark t := by
        intro t
        rw [← he₁]
        exact Canvas.mark_put _ _ _ _
      have htidy₁ : Tidy e₁.surfaces := by
        rw [← he₁]
        exact htidy.insert hp₀ (hn₀.withDirty false)
      have hbs₁ : ∀ b ∈ bs, e₁.surfaces.get? b.id = some b := by
        intro b hb
        have hne : b.id ≠ b₀.id := fun heq => hnot (List.mem_map.2 ⟨b, hb, heq⟩)
        rw [hget, if_neg hne]
        exact hbs b (List.mem_cons_of_mem b₀ hb)
      obtain ⟨e', hrun, ⟨h1, h2, h3, h4, h5⟩, hnone, hsome⟩ := ih htidy₁ hbs₁ hnodup
      refine ⟨e', ?_, ?_, ?_, ?_⟩
      · rw [← hrun, ← he₁]
        rfl
      · rw [← he₁] at h1 h2 h3 h4 h5
        exact ⟨h1, h2, h3, h4, h5⟩
      · intro id hid
        refine hnone id ?_
        rw [hget, if_neg, hid]
        rintro rfl
        simp [hb₀] at hid
      · intro id b hb
        by_cases hid : id = b₀.id
        · subst hid
          obtain rfl : b₀ = b := Option.some.inj (hb₀.symm.trans hb)
          have hnew : ({ b₀ with dirty := false } : BufferPair) ∉ bs :=
            fun hmem => hnot (List.mem_map.2 ⟨_, hmem, rfl⟩)
          obtain ⟨hsurf, hmarks⟩ := (hsome b₀.id _ (by rw [hget, if_pos rfl])).2 hnew
          refine ⟨fun _ => ⟨hsurf, ?_⟩, fun hmem => absurd List.mem_cons_self hmem⟩
          rw [hmarks b₀.read (.inl rfl), hmark, if_pos rfl]
        · have hb₁ : e₁.surfaces.get? id = some b := by rw [hget, if_neg hid, hb]
          have hkeep : ∀ t, t = b.read ∨ t = b.write → e₁.backend.mark t = e.backend.mark t := by
            intro t ht
            rw [hmark, if_neg]
            exact (htidy id b hb).2.apart hn₀ hid ht (.inl rfl)
          have hne : b ≠ b₀ := by
            rintro rfl
            exact hid (htidy id b hb).2.1.symm
          obtain ⟨hin, hout⟩ := hsome id b hb₁
          constructor
          · intro hmem
            obtain ⟨hsurf, hread⟩ := hin ((List.mem_cons.1 hmem).resolve_left hne)
            exact ⟨hsurf, hread.trans (hkeep _ (.inr rfl))⟩
          · intro hmem
            obtain ⟨hsurf, hmarks⟩ := hout fun h => hmem (List.mem_cons_of_mem b₀ h)
            exact ⟨hsurf, fun t ht => (hmarks t ht).trans (hkeep t ht)⟩

/-- A renderer and the plain store between calls. -/
structure Mirrors (e : Executor Canvas) (s : SurfaceStore) : Prop where
  tidied : e.Tidied
  width : e.width = s.width
  height : e.height = s.height
  current : ∀ g, e.current = some g → g.graph = s.graph ∧ g.passes = s.passes ∧
    g.graph.OneAttachment
  /-- Every surface has its value in the buffer that is read. -/
  values : ∀ id, s.values.get? id = (e.surfaces.get? id).map fun b => e.backend.mark b.read
  clean : ∀ id b, e.surfaces.get? id = some b → b.dirty = false
  serial : e.backend.serial = s.serial
  shots : List.Forall₂ Shot.Agrees e.backend.shots s.shots

/-- A frame starts with the values it keeps. -/
theorem Mirrors.opened {e : Executor Canvas} {s : SurfaceStore} (h : Mirrors e s) {g : LoadedGraph}
    (hg : e.current = some g) (state : FrameState) :
    MirrorsFrame (Frame.opened e g state) s.values s where
  tidy := h.tidied.surfaces
  ready := h.tidied.current g hg
  once := (h.current g hg).2.2
  values := by
    intro id
    rw [h.values id]
    cases hb : e.surfaces.get? id with
    | none => simp [Frame.opened, hb]
    | some b => simp [Frame.opened, Frame.holder, hb, h.clean id b hb, Table.getD]
  kept := by
    intro id b hb _
    have hb : e.surfaces.get? id = some b := hb
    exact ⟨by rw [h.values id, hb]; rfl, rfl⟩
  reads := by
    intro id b hb _
    have hb : e.surfaces.get? id = some b := hb
    simp [Frame.opened, hb, h.clean id b hb]
  serial := h.serial
  shots := h.shots

/-- The surfaces that were written to feedbacks, each once. -/
theorem dirty_surfaces {surfaces : Table BufferPair} (htidy : Tidy surfaces) :
    (∀ b ∈ surfaces.values.filter (·.dirty), surfaces.get? b.id = some b) ∧
      ((surfaces.values.filter (·.dirty)).map (·.id)).Nodup := by
  have hid : ∀ e ∈ surfaces.entries, e.2.id = e.1 := by
    intro e he
    exact (htidy e.1 e.2 (Table.mem_entries_iff.1 he)).2.1
  constructor
  · intro b hb
    obtain ⟨id, hget⟩ := Table.mem_values_iff.1 (List.mem_filter.1 hb).1
    rw [(htidy id b hget).2.1, hget]
  · have hkeys : surfaces.values.map (·.id) = surfaces.keys := by
      rw [Table.values, Table.keys, List.map_map]
      exact List.map_congr_left hid
    have hsub : ((surfaces.values.filter (·.dirty)).map (·.id)).Sublist
        (surfaces.values.map (·.id)) :=
      List.filter_sublist.map _
    exact (hkeys ▸ surfaces.nodup_keys).sublist hsub

/-- After settling, every surface has its value where the frame reads it. -/
theorem MirrorsFrame.settled {f : Frame Canvas} {kept : Table Mark} {s : SurfaceStore}
    (h : MirrorsFrame f kept s) {e : Executor Canvas}
    (hsome : ∀ id b, f.exec.surfaces.get? id = some b →
      (b ∈ f.exec.surfaces.values.filter (·.dirty) →
        e.surfaces.get? id = some { b with dirty := false } ∧
        e.backend.mark b.read = f.exec.backend.mark b.write) ∧
      (b ∉ f.exec.surfaces.values.filter (·.dirty) → e.surfaces.get? id = some b ∧
        ∀ t, t = b.read ∨ t = b.write → e.backend.mark t = f.exec.backend.mark t))
    {id : String} {b : BufferPair} (hb : f.exec.surfaces.get? id = some b) :
    e.surfaces.get? id = some { b with dirty := false } ∧
      s.values.get? id =
        some (e.backend.mark (if b.isFeedback then b.read else f.read.getD id "")) := by
  obtain ⟨hdirty, hclean⟩ := hsome id b hb
  have hvalue : s.values.get? id = some (f.exec.backend.mark (f.holder id b)) := by
    rw [h.values id, hb]
    rfl
  have hmem : b ∈ f.exec.surfaces.values := Table.mem_values_iff.2 ⟨id, hb⟩
  cases hd : b.dirty with
  | true =>
      obtain ⟨hsurf, hmark⟩ := hdirty (List.mem_filter.2 ⟨hmem, hd⟩)
      have hfb : b.isFeedback = true := by
        by_contra hnot
        have := (h.reads id b hb (by simpa using hnot)).2
        simp [hd] at this
      refine ⟨hsurf, ?_⟩
      rw [hvalue, Frame.holder, hfb, hd, if_pos rfl, if_pos rfl, if_pos rfl, hmark]
  | false =>
      obtain ⟨hsurf, hmark⟩ := hclean fun hin => by simp [hd] at hin
      have hsame : ({ b with dirty := false } : BufferPair) = b := by rw [← hd]
      refine ⟨hsurf.trans (congrArg some hsame.symm), ?_⟩
      cases hfb : b.isFeedback with
      | true =>
          rw [hvalue, Frame.holder, hfb, hd, if_pos rfl, if_neg (by simp), if_pos rfl,
            hmark _ (.inl rfl)]
      | false =>
          obtain ⟨hread, -⟩ := h.reads id b hb hfb
          rw [hvalue, Frame.holder_output hfb hread, if_neg Bool.false_ne_true,
            Table.getD_of_get? _ hread, hmark]
          split
          · exact .inr rfl
          · exact .inl rfl

/-- What a frame shows at its end, and the surfaces it leaves: feedbacks are settled,
and the surfaces that were written are read from where they were written. -/
theorem MirrorsFrame.finish {f : Frame Canvas} {kept : Table Mark} {s : SurfaceStore}
    (h : MirrorsFrame f kept s) (hexec : f.exec.Tidied) (hgraph : f.current.graph = s.graph)
    (hwidth : f.exec.width = s.width) (hheight : f.exec.height = s.height)
    (hcurrent : ∀ g, f.exec.current = some g → g.graph = s.graph ∧ g.passes = s.passes ∧
      g.graph.OneAttachment) :
    Mirrors f.finish.1
      (match s.values.get? s.graph.render with
        | some m => { s with shots := s.shots ++ [.shown m] }
        | none => s) := by
  have htidied := Executor.finish_tidied hexec
  obtain ⟨hdirty, hnodup⟩ := dirty_surfaces h.tidy
  obtain ⟨e₁, hsettle, ⟨hw, hh, hc, hserial, hshots⟩, hnone, hsome⟩ :=
    settle_canvas _ h.tidy hdirty hnodup
  -- the surfaces that were written change their buffers, whatever is shown
  have hclose : ∀ (c : Canvas) (l : List Shot), (∀ t, c.mark t = e₁.backend.mark t) →
      c.serial = e₁.backend.serial → List.Forall₂ Shot.Agrees c.shots l →
      ({ e₁ with
        backend := c
        surfaces := e₁.surfaces.map fun id b => if f.written.contains id then b.swap else b
        frames := e₁.frames + 1 } : Executor Canvas).Tidied →
      Mirrors ({ e₁ with
        backend := c
        surfaces := e₁.surfaces.map fun id b => if f.written.contains id then b.swap else b
        frames := e₁.frames + 1 } : Executor Canvas) { s with shots := l } := by
    intro c l hmark hcserial hl htidy
    refine ⟨htidy, hw.trans hwidth, hh.trans hheight, fun g hg => hcurrent g (hc.symm.trans hg), ?_,
      ?_, hcserial.trans (hserial.trans h.serial), hl⟩
    · intro id
      rw [Table.get?_map, Option.map_map]
      cases hb : f.exec.surfaces.get? id with
      | none => simp [h.values id, hb, hnone id hb]
      | some b =>
          obtain ⟨hsurf, hvalue⟩ := h.settled hsome hb
          rw [hvalue, hsurf, Option.map_some, Function.comp, hmark]
          cases hfb : b.isFeedback with
          | true => simp [(h.kept id b hb hfb).2]
          | false =>
              rw [if_neg Bool.false_ne_true, Table.getD_of_get? _ (h.reads id b hb hfb).1]
              split <;> rfl
    · intro id b' hb'
      rw [Table.get?_map, Option.map_eq_some_iff] at hb'
      obtain ⟨b₁, hb₁, rfl⟩ := hb'
      cases hb : f.exec.surfaces.get? id with
      | none => simp [hnone id hb] at hb₁
      | some b =>
          obtain rfl := Option.some.inj (hb₁.symm.trans (h.settled hsome hb).1)
          split <;> rfl
  have hend : f.exec.submit .endFrame = (f.exec, none) := rfl
  unfold Frame.finish Frame.shown? at htidied ⊢
  rw [hend] at htidied ⊢
  dsimp only at htidied ⊢
  rw [hsettle] at htidied ⊢
  dsimp only at htidied ⊢
  rw [hgraph] at htidied ⊢
  cases hb : f.exec.surfaces.get? s.graph.render with
  | none =>
      rw [hb] at htidied
      have hvalue : s.values.get? s.graph.render = none := by
        rw [h.values, hb]
        rfl
      rw [hvalue]
      exact hclose e₁.backend s.shots (fun _ => rfl) rfl (hshots ▸ h.shots) htidied
  | some b =>
      rw [hb] at htidied
      obtain ⟨-, hvalue⟩ := h.settled hsome hb
      rw [hvalue]
      refine hclose _ _ (fun _ => rfl) rfl ?_ htidied
      exact List.rel_append (hshots ▸ h.shots) (.cons rfl .nil)

/-- Drawing changes neither the size nor the graph. -/
theorem SurfaceStore.foldl_draw (kept : Table Mark) (js : List Job) (s : SurfaceStore) :
    (js.foldl (draw kept) s).width = s.width ∧ (js.foldl (draw kept) s).height = s.height ∧
      (js.foldl (draw kept) s).graph = s.graph ∧ (js.foldl (draw kept) s).passes = s.passes := by
  induction js generalizing s with
  | nil => exact ⟨rfl, rfl, rfl, rfl⟩
  | cons j js ih => exact ih (s.draw kept j)

/-- A frame that succeeds keeps the renderer and the plain store alike. -/
theorem Mirrors.frame {e e' : Executor Canvas} {s : SurfaceStore} (h : Mirrors e s)
    {state : FrameState} (hframe : e.frame state = (e', none)) : Mirrors e' (s.frame state) := by
  cases hd : e.disposed with
  | true => simp [Executor.frame, hd] at hframe
  | false =>
      cases hg : e.current with
      | none => simp [Executor.frame, hd, hg] at hframe
      | some g =>
          obtain ⟨hgraph, hpasses, honce⟩ := h.current g hg
          have hready := h.tidied.current g hg
          rw [Executor.frame_canvas hd hg state] at hframe
          have houtcome := groups_outcome g (Frame.opened e g (e.frameState state)) rfl
          cases hr :
              runList Frame.group (Frame.opened e g (e.frameState state))
                  (Frame.stepGroups g.passes) with
          | mk f r =>
              rw [hr] at houtcome hframe
              cases r with
              | some err => simp [Frame.abort, Executor.submit, Backend.submit] at hframe
              | none =>
                  have houtcome : Performs _ (g.jobs (e.frameState state).env) f := houtcome
                  have hsame := houtcome.same
                  have hjobs : ∀ j ∈ g.jobs (e.frameState state).env, j.pass ∈ g.graph.passes :=
                    fun j hj => List.mem_of_getElem? (hready.pass_of_mem_jobs hj)
                  have hend :=
                    MirrorsFrame.performs houtcome (h.opened hg (e.frameState state)) hjobs
                  obtain ⟨hw, hh, hgr, hps⟩ :=
                    SurfaceStore.foldl_draw s.values (g.jobs (e.frameState state).env) s
                  have hfinish := hend.finish ⟨hend.tidy, hsame.scene ▸ h.tidied.current⟩
                    (hsame.current ▸ (hgraph.trans hgr.symm))
                      (hsame.width.trans (h.width.trans hw.symm))
                    (hsame.height.trans (h.height.trans hh.symm)) (by
                      rw [hsame.scene]
                      intro g' hg'
                      rw [hgr, hps]
                      exact h.current g' hg')
                  rw [Frame.close_none] at hframe
                  rw [hframe] at hfinish
                  rw [SurfaceStore.frame]
                  have hstate : (if state.width = 0 || state.height = 0 then
                      { state with width := s.width, height := s.height } else state) =
                          e.frameState state := by
                    rw [Executor.frameState, h.width, h.height]
                  rw [hstate, ← hpasses]
                  exact hfinish

/-! ## loading -/

/-- Compiling programs changes neither the surfaces nor what was painted. -/
theorem compilePrograms_canvas {e e₁ : Executor Canvas} {g : Graph}
    (h : e.compilePrograms g = (e₁, none)) :
    e₁.surfaces = e.surfaces ∧ e.SameRest e₁ ∧ ∀ t, e₁.backend.mark t = e.backend.mark t := by
  have hrun : ∀ ps : List (String × Shader), runList Executor.compileProgram e ps = (e, none) := by
    intro ps
    induction ps with
    | nil => rfl
    | cons p ps ih => exact ih
  unfold Executor.compilePrograms at h
  dsimp only at h
  rw [hrun] at h
  obtain rfl := (Prod.mk.inj h).1
  exact ⟨rfl, ⟨rfl, rfl, rfl, rfl, rfl⟩, fun _ => rfl⟩

/-- Textures that are created hold nothing, the others what they held. -/
theorem createTextures_canvas (ts : List (String × TextureSpec)) {e e' : Executor Canvas}
    {done : List String} (h : e.createTextures done ts = (e', none)) :
    e'.surfaces = e.surfaces ∧ e.SameRest e' ∧
      ∀ t, e'.backend.mark t = if t ∈ ts.map (·.1) then .blank else e.backend.mark t := by
  induction ts generalizing e done with
  | nil =>
      obtain rfl := (Prod.mk.inj h).1
      exact ⟨rfl, ⟨rfl, rfl, rfl, rfl, rfl⟩, by simp⟩
  | cons t ts ih =>
      obtain ⟨hsurf, ⟨h1, h2, h3, h4, h5⟩, hmark⟩ := ih (e := { e with
        backend := e.backend.put t.1 .blank
        textures := e.textures.insert t.1 t.2 }) h
      refine ⟨hsurf, ⟨h1, h2, h3, h4, h5⟩, fun a => ?_⟩
      rw [hmark, Canvas.mark_put, List.map_cons]
      by_cases ha : a = t.1 <;> by_cases hm : a ∈ ts.map (·.1) <;> simp [ha, hm]

/-- Textures that are destroyed hold nothing, the others what they held. -/
theorem discard_canvas (ids : List String) (e : Executor Canvas) :
    e.SameRest (e.discard ids) ∧
      ∀ t, (e.discard ids).backend.mark t = if t ∈ ids then .blank else e.backend.mark t := by
  induction ids generalizing e with
  | nil => exact ⟨⟨rfl, rfl, rfl, rfl, rfl⟩, by simp [Executor.discard]⟩
  | cons id ids ih =>
      obtain ⟨⟨h1, h2, h3, h4, h5⟩, hmark⟩ := ih { e with
        backend := { e.backend with contents := e.backend.contents.erase id }
        textures := e.textures.erase id }
      refine ⟨⟨h1, h2, h3, h4, h5⟩, fun a => ?_⟩
      have herase : ({ e.backend with contents := e.backend.contents.erase id } : Canvas).mark a =
          if a = id then .blank else e.backend.mark a := Table.getD_erase _ _ _ _
      refine (hmark a).trans ?_
      rw [herase]
      by_cases ha : a = id <;> by_cases hm : a ∈ ids <;> simp [ha, hm]

/-- The values after loading: the new surfaces hold nothing. -/
theorem get?_newValues (ids : List String) (values : Table Mark) (id : String) :
    (ids.foldl (fun t id => if t.contains id then t else t.insert id .blank) values).get? id =
      (values.get? id).or (if id ∈ ids then some .blank else none) := by
  induction ids generalizing values with
  | nil => simp
  | cons a ids ih =>
      rw [List.foldl_cons, ih]
      cases hv : values.get? a with
      | some m =>
          have hc : values.contains a = true := Table.contains_iff.2 ⟨m, hv⟩
          rw [if_pos hc]
          by_cases ha : id = a
          · subst ha
            simp [hv]
          · simp [ha]
      | none =>
          have hc : values.contains a = false := by simp [Table.contains, hv]
          rw [hc, if_neg Bool.false_ne_true, Table.get?_insert]
          by_cases ha : id = a
          · subst ha
            simp [hv]
          · simp [ha]

/-- The textures that are created for a graph are slots and buffers of new surfaces. -/
theorem mem_newTextures {e : Executor Canvas} {alloc : Graph.Allocation} {added : List BufferPair}
    {t : String}
    (h : t ∈ (e.newTextures (alloc.specs.zipIdx.map fun (spec, i) => (Executor.slotId i spec, spec))
      added).map
      (·.1)) :
    (∃ i spec, t = Executor.slotId i spec) ∨ ∃ b ∈ added, t ∈ b.buffers := by
  obtain ⟨p, hp, rfl⟩ := List.mem_map.1 h
  rcases List.mem_append.1 hp with hp | hp
  · obtain ⟨q, -, rfl⟩ := List.mem_map.1 (List.mem_filter.1 hp).1
    exact .inl ⟨q.2, q.1, rfl⟩
  · obtain ⟨b, hb, hp⟩ := List.mem_flatMap.1 hp
    obtain ⟨t, ht, rfl⟩ := List.mem_map.1 hp
    exact .inr ⟨b, hb, ht⟩

/-- Releasing slots leaves the buffers of surfaces alone. -/
theorem releaseSlots_canvas (e : Executor Canvas) (keep : List String) :
    e.SameRest (e.releaseSlots keep) ∧ ∀ id b, e.surfaces.get? id = some b →
      (e.releaseSlots keep).backend.mark b.read = e.backend.mark b.read := by
  obtain ⟨hrest, hmark⟩ := discard_canvas
    (e.textures.keys.filter (!(keep ++ e.surfaces.values.flatMap BufferPair.buffers).contains ·)) e
  refine ⟨hrest, fun id b hb => ?_⟩
  have hlive : b.read ∈ keep ++ e.surfaces.values.flatMap BufferPair.buffers :=
    List.mem_append_right keep
      (List.mem_flatMap.2 ⟨b, Table.mem_values_iff.2 ⟨id, hb⟩, b.read_mem_buffers⟩)
  refine (hmark b.read).trans (if_neg fun hmem => ?_)
  have hnot := (List.mem_filter.1 hmem).2
  simp only [List.contains_eq_mem, Bool.not_eq_true', decide_eq_false_iff_not] at hnot
  exact hnot hlive

/-- Creating the textures of a graph leaves the buffers of the surfaces that are
there alone, and those of new surfaces hold nothing. -/
theorem newTextures_mark {e e' : Executor Canvas} (htidy : Tidy e.surfaces)
    {alloc : Graph.Allocation} {g : Graph} (hmark : ∀ t, e'.backend.mark t =
      if t ∈ (e.newTextures (alloc.specs.zipIdx.map fun (spec, i) => (Executor.slotId i spec, spec))
        (e.newSurfaces g)).map (·.1) then .blank else e.backend.mark t) (id : String) :
    (∀ b, e.surfaces.get? id = some b → e'.backend.mark b.read = e.backend.mark b.read) ∧
      (e.surfaces.get? id = none → id ∈ g.surfaces →
        e'.backend.mark (BufferPair.ofSurface id (g.textures.getD id .surface)).read = .blank) := by
  constructor
  · intro b hb
    obtain ⟨hp, hn⟩ := htidy id b hb
    rw [hmark, if_neg]
    intro hmem
    rcases mem_newTextures hmem with ⟨i, spec, heq⟩ | ⟨c, hc, ht⟩
    · exact hn.ne_slot hp (.inl rfl) i spec heq.symm
    · obtain ⟨a, ha, rfl⟩ := List.mem_map.1 hc
      have hnew : e.surfaces.contains a = false := by simpa using (List.mem_filter.1 ha).2
      have hne : id ≠ a := by
        rintro rfl
        simp [Table.contains, hb] at hnew
      exact hn.apart (BufferPair.named_ofSurface a _) hne (.inl rfl)
        (BufferPair.mem_buffers_iff.1 ht) rfl
  · intro hnone hid
    rw [hmark, if_pos]
    refine List.mem_map.2 ⟨(_, (BufferPair.ofSurface id (g.textures.getD id .surface)).spec),
      ?_, rfl⟩
    refine List.mem_append_right _
      (List.mem_flatMap.2 ⟨BufferPair.ofSurface id (g.textures.getD id .surface),
      List.mem_map.2 ⟨id, List.mem_filter.2 ⟨hid, by simp [Table.contains, hnone]⟩, rfl⟩, ?_⟩)
    exact List.mem_map.2 ⟨_, BufferPair.read_mem_buffers _, rfl⟩

/-- Loading that succeeds keeps the renderer and the plain store alike. -/
theorem Mirrors.load {e e' : Executor Canvas} {s : SurfaceStore} (h : Mirrors e s) {g : Graph}
    {alloc : Option Graph.Allocation} (honce : g.OneAttachment)
    (hload : e.load g alloc = (e', none)) :
    Mirrors e' (s.load g) := by
  have htidied := Executor.load_tidied h.tidied g alloc
  rw [hload] at htidied
  obtain ⟨e₁, e₂, passes, -, hcompile, hpasses, hcreate, rfl⟩ := Executor.load_none hload
  obtain ⟨hsurf₁, ⟨hw₁, hh₁, -, hs₁, hl₁⟩, hmark₁⟩ := compilePrograms_canvas hcompile
  obtain ⟨hsurf₂, ⟨hw₂, hh₂, -, hs₂, hl₂⟩, hmark₂⟩ := createTextures_canvas _ hcreate
  have hnew := newTextures_mark (hsurf₁ ▸ h.tidied.surfaces) hmark₂
  -- the renderer with the new graph, before slots are released
  generalize he₃ : ({ e₂ with
    surfaces := (e₁.newSurfaces g).foldl (fun t (b : BufferPair) => t.insert b.id b) e₂.surfaces
    current := some { graph := g, alloc := alloc.getD g.allocate, passes,
                      slots := slotIds (alloc.getD g.allocate) } } : Executor Canvas) = e₃
                        at htidied ⊢
  have hget : ∀ id, e₃.surfaces.get? id = (e.surfaces.get? id).or
      (if id ∈ g.surfaces then some (.ofSurface id (g.textures.getD id .surface)) else none) := by
    intro id
    rw [← hsurf₁, ← Executor.get?_newSurfaces e₁ g id, ← he₃, ← hsurf₂]
  obtain ⟨⟨hw₃, hh₃, hc₃, hs₃, hl₃⟩, hmark₃⟩ :=
    releaseSlots_canvas e₃ (slotIds (alloc.getD g.allocate))
  have hsurf₃ : (e₃.releaseSlots (slotIds (alloc.getD g.allocate))).surfaces = e₃.surfaces :=
    (Executor.discard_scene _ _).1
  have hbackend : e₃.backend = e₂.backend := by rw [← he₃]
  rw [SurfaceStore.load, hpasses]
  refine ⟨htidied, ?_, ?_, ?_, ?_, ?_, ?_, ?_⟩
  · rw [hw₃, ← he₃, hw₂, hw₁, h.width]
  · rw [hh₃, ← he₃, hh₂, hh₁, h.height]
  · intro g' hg'
    rw [hc₃, ← he₃] at hg'
    obtain rfl := Option.some.inj hg'
    exact ⟨rfl, rfl, honce⟩
  · intro id
    rw [get?_newValues, h.values id, hsurf₃]
    obtain ⟨hold, hblank⟩ := hnew id
    rw [hsurf₁] at hold hblank
    have hid := hget id
    cases hb : e.surfaces.get? id with
    | some b =>
        rw [hb, Option.some_or] at hid
        rw [hid, Option.map_some, Option.some_or, Option.map_some, hmark₃ id b hid, hbackend,
          hold b hb, hmark₁]
    | none =>
        rw [hb, Option.none_or] at hid
        rw [Option.map_none, Option.none_or]
        by_cases hmem : id ∈ g.surfaces
        · rw [if_pos hmem] at hid ⊢
          rw [hid, Option.map_some, hmark₃ id _ hid, hbackend, hblank hb hmem]
        · rw [if_neg hmem] at hid ⊢
          rw [hid]
          rfl
  · intro id b hb
    rw [hsurf₃, hget] at hb
    rcases Option.or_eq_some_iff.1 hb with hb | ⟨-, hb⟩
    · exact h.clean id b hb
    · split at hb
      · rw [← Option.some.inj hb]
        rfl
      · simp at hb
  · rw [hs₃, hbackend, hs₂, hs₁, h.serial]
  · rw [hl₃, hbackend, hl₂, hl₁]
    exact h.shots

/-! ## all calls -/

/-- A renderer that was just started has no surfaces, and neither has the store. -/
theorem Mirrors.start {width height : Int} {c : Canvas} {e : Executor Canvas}
    (h : Executor.start ({} : Canvas) width height = (c, .ok e)) :
    Mirrors e (SurfaceStore.start width height) := by
  have htidied := Executor.tidied_of_reachable (.start h)
  obtain rfl := Except.ok.inj (Prod.mk.inj h).2
  exact ⟨htidied, rfl, rfl, by simp, fun _ => rfl, by simp, rfl, .nil⟩

/-- The renderer refines the plain store.  In any run of loads and frames that
succeed, for graphs that bind a surface to at most one attachment of a pass, every
dispatch samples an output from the buffer with what was last written to it, in
this frame or before, and a feedback from the buffer with what was last written to
it before the frame; and the texture that is shown holds the value of the render
surface at the end of the frame. -/
theorem executor_refines_surfaceStore {width height : Int} {c : Canvas} {e e' : Executor Canvas}
    (hstart : Executor.start ({} : Canvas) width height = (c, .ok e)) {calls : List Executor.Call}
    (honce : ∀ g alloc, .load g alloc ∈ calls → g.OneAttachment)
    (hrun : runList Executor.perform e calls = (e', none)) :
    List.Forall₂ Shot.Agrees e'.backend.shots
      (calls.foldl SurfaceStore.perform (SurfaceStore.start width height)).shots := by
  have hall : ∀ (calls : List Executor.Call) (e : Executor Canvas) (s : SurfaceStore), Mirrors e s →
      (∀ g alloc, .load g alloc ∈ calls → g.OneAttachment) →
        runList Executor.perform e calls = (e', none) →
      Mirrors e' (calls.foldl SurfaceStore.perform s) := by
    intro calls
    induction calls with
    | nil =>
        intro e s h _ hrun
        obtain rfl := (Prod.mk.inj hrun).1
        exact h
    | cons call calls ih =>
        intro e s h honce hrun
        rw [runList] at hrun
        cases hc : e.perform call with
        | mk e₁ r =>
            rw [hc] at hrun
            cases r with
            | some err => simp at hrun
            | none =>
                refine ih e₁ _ ?_
                  (fun g alloc hmem => honce g alloc (List.mem_cons_of_mem call hmem)) hrun
                cases call with
                | load g alloc => exact h.load (honce g alloc List.mem_cons_self) hc
                | frame state => exact h.frame hc
  exact (hall calls e _ (.start hstart) honce hrun).shots

/-- A pass that runs twice in a frame, samples an output and a feedback and writes
both. -/
def echo : Graph where
  passes := [
    { id := "a"
      inputs := .ofList [("src", "global_o0"), ("old", "feedback_f0")]
      outputs := .ofList [("color", "global_o0"), ("keep", "feedback_f0")]
      repetition := { count := 2 } }]
  programs := .ofList [("", {})]
  textures := .ofList [("global_o0", .surface), ("feedback_f0", .surface)]
  render := "global_o0"

theorem echo_oneAttachment : echo.OneAttachment := by
  intro p hp id a b _ ha hb
  have hentries : p.outputs.entries = [("color", "global_o0"), ("keep", "feedback_f0")] := by
    obtain rfl := List.mem_singleton.1 hp
    decide +kernel
  rw [← Table.mem_entries_iff, hentries] at ha hb
  simp only [List.mem_cons, Prod.mk.injEq, List.not_mem_nil, or_false] at ha hb
  rcases ha with ⟨rfl, rfl⟩ | ⟨rfl, rfl⟩ <;> rcases hb with ⟨rfl, h⟩ | ⟨rfl, h⟩ <;> simp_all

/-- Two frames of the pass: the output is sampled as the run before left it, the
feedback as the frame before left it. -/
theorem echo_refines :
    let calls : List Executor.Call := [.load echo none, .frame {}, .frame {}]
    let e :=
      (runList Executor.perform ({ backend := {}, width := 64, height := 32 } : Executor Canvas)
        calls).1
    echo.OneAttachment ∧
      (calls.foldl SurfaceStore.perform (SurfaceStore.start 64 32)).shots =
        [.drawn "a" (.ofList [("src", .blank), ("old", .blank)]),
         .drawn "a" (.ofList [("src", .paint 0 "color"), ("old", .blank)]),
         .shown (.paint 1 "color"),
         .drawn "a" (.ofList [("src", .paint 1 "color"), ("old", .paint 1 "keep")]),
         .drawn "a" (.ofList [("src", .paint 2 "color"), ("old", .paint 1 "keep")]),
           .shown (.paint 3 "color")] ∧
      List.Forall₂ Shot.Agrees e.backend.shots
        (calls.foldl SurfaceStore.perform (SurfaceStore.start 64 32)).shots := by
  intro calls e
  have hrun : runList Executor.perform
      ({ backend := {}, width := 64, height := 32 } : Executor Canvas) calls =
      (e, none) := Prod.snd_eq_iff.1 (by decide +kernel)
  refine ⟨echo_oneAttachment, by decide +kernel,
    executor_refines_surfaceStore (c := {}) rfl ?_ hrun⟩
  intro g alloc hmem
  have hg : g = echo := by
    simp only [calls, List.mem_cons, Executor.Call.load.injEq, reduceCtorEq, List.not_mem_nil,
      or_false] at hmem
    exact hmem.1
  exact hg ▸ echo_oneAttachment

end EffectChain
