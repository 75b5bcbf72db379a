import EffectChain.Render.Executor

/-!
# EffectChain.Render.Frame

One frame of the running graph.

The passes of a step run as a group, as often as the step repeats.  Within a frame
a surface is read from the buffer that was written last; a feedback is read from
the frame before, and what was written to it moves there when the frame ends.  A
frame that fails is ended and shows nothing.
-/

namespace EffectChain

/-- A frame that is being rendered. -/
structure Frame (β : Type) where
  exec : Executor β
  current : LoadedGraph
  state : FrameState
  env : Env
  /-- The buffer each surface is read from. -/
  read : Table String
  /-- The surfaces that were written. -/
  written : Table Unit := {}

namespace Frame

variable {β : Type} [Backend β]

/-- The stored texture of a texture that lives within a frame. -/
def stored (f : Frame β) (pass id : String) : Except RenderError String :=
  match (f.current.alloc.slots.get? id).bind (f.current.slots[·]?) with
  | some t => .ok t
  | none => .error (.backend "R004" "ExecutePass" pass (.noStorage id))

/-- The stored texture a pass reads. -/
def bindRead (f : Frame β) (pass id : String) : Except RenderError String :=
  match f.exec.surfaces.get? id with
  | some b => .ok (if b.isFeedback then b.read else f.read.getD id "")
  | none => f.stored pass id

/-- The stored texture a pass writes.  The buffers of a surface that was written
before in the frame change places, so that a pass can read what was written. -/
def bindWrite (f : Frame β) (pass id : String) : Frame β × Except RenderError String :=
  match f.exec.surfaces.get? id with
  | some b =>
    let b := if !b.isFeedback && f.written.contains id then b.swap else b
    ({ f with exec := { f.exec with surfaces := f.exec.surfaces.insert id b } }, .ok b.write)
  | none => (f, f.stored pass id)

/-- Binds the inputs of a pass. -/
def bindInputs (f : Frame β) (pass : String) (inputs : Table String) :
    Except RenderError (Table String) :=
  inputs.entries.foldlM (fun t (name, id) => (f.bindRead pass id).map (t.insert name)) {}

/-- Binds one output after another. -/
def bindOutputs (pass : String) (f : Frame β) (bound : Table String) :
    List (String × String) → Frame β × Except RenderError (Table String)
  | [] => (f, .ok bound)
  | (name, id) :: rest =>
    match f.bindWrite pass id with
    | (f, .error e) => (f, .error e)
    | (f, .ok t) => bindOutputs pass f (bound.insert name t) rest

/-- After a dispatch: feedbacks are marked, other surfaces are read from what was
written. -/
def commitOne (f : Frame β) (id : String) : Frame β :=
  match f.exec.surfaces.get? id with
  | none => f
  | some b =>
    if b.isFeedback then
      { f with exec :=
                 { f.exec with surfaces := f.exec.surfaces.insert id { b with dirty := true } } }
    else { f with read := f.read.insert id b.write, written := f.written.insert id () }

def commit (f : Frame β) (outputs : Table String) : Frame β := outputs.values.foldl commitOne f

/-- The size of the texture that a pass writes, of its outputs the one with the
smallest name. -/
def outputSize (f : Frame β) (id : String) : List Int :=
  let spec := (f.current.graph.textures.getD id .surface).sized f.state.width f.state.height
  [spec.width, spec.height, if spec.volume then spec.depth else 1]

/-- The number of workgroups of a size that cover a length, reckoned in 64 bits. -/
def workgroups (length size : Int) : Int := (Number.wrap64 (length + size - 1)).tdiv size

/-- The number of workgroups that cover the first output. -/
def groups (f : Frame β) (p : Graph.Pass) : Except RenderError (Int × Int × Int) :=
  let fail := fun fault => Except.error (RenderError.backend "R003" "ExecutePass" p.id fault)
  match Graph.sortedNames p.outputs.values with
  | [] => fail .noOutput
  | id :: _ =>
    let size := f.outputSize id
    let counts := (size.zip p.workgroup).map fun (n, w) => workgroups n w
    if (size.zip p.workgroup).any fun (n, w) =>
      w < 1 || n < 1 then fail (.emptyDispatch p.workgroup size)
    else match counts with
      | [x, y, z] => .ok (x, y, z)
      | _ => fail (.emptyDispatch p.workgroup size)

/-- One run of a pass. -/
def dispatch (p : Graph.Pass) (uniforms : Table Datum) (f : Frame β) (iteration : Int) :
    Frame β × Option RenderError :=
  match f.bindInputs p.id p.inputs with
  | .error e => (f, some e)
  | .ok inputs =>
    match bindOutputs p.id f {} p.outputs.entries with
    | (f, .error e) => (f, some e)
    | (f, .ok outputs) =>
      match if p.kind = .compute then f.groups p else .ok (0, 0, 0) with
      | .error e => (f, some e)
      | .ok groups =>
        let d : Dispatch :=
          { pass := p.id, program := p.program, kind := p.kind, inputs, outputs, uniforms, groups,
            iteration }
        match f.exec.submit (.executePass d f.state) with
        | (exec, some r) =>
            ({ f with exec }, some (RenderError.ofRefusal "R003" "ExecutePass" p.id r))
        | (exec, none) => ({ f with exec }.commit p.outputs, none)

/-- The numbers from zero up to a bound that may be negative. -/
def rounds (n : Int) : List Int := (List.range n.toNat).map Int.ofNat

/-- The runs of a pass in one round of its step. -/
def pass (round : Int) (f : Frame β) (p : LoadedPass) : Frame β × Option RenderError :=
  let uniforms := p.pass.uniforms.map fun _ v => v.eval f.env
  match p.times (f.env.union uniforms) with
  | .error e => (f, some e)
  | .ok n =>
    if !f.exec.programs.contains p.pass.program then
      (f, some (.backend "R002" "ExecutePass" p.pass.id (.programMissing p.pass.program)))
    else runList (dispatch p.pass uniforms) f ((rounds n).map (round * n + ·))

/-- All rounds of a group of passes of one step. -/
def group (f : Frame β) (ps : List LoadedPass) : Frame β × Option RenderError :=
  match ps with
  | [] => (f, none)
  | p :: _ =>
    if p.pass.guards.all fun g => (g.eval f.env).truthy then
      runList (fun f round => runList (pass round) f ps) f
        (rounds (p.pass.repetition.inFrame f.env))
    else (f, none)

/-- The passes of each step, in order. -/
def stepGroups (ps : List LoadedPass) : List (List LoadedPass) :=
  ps.splitBy fun a b => a.pass.step = b.pass.step

/-- Ends a frame that failed.  What was written to feedbacks is forgotten. -/
def abort (f : Frame β) (err : RenderError) : Executor β × Option RenderError :=
  let exec := { f.exec with surfaces := f.exec.surfaces.map fun _ b => { b with dirty := false } }
  match exec.submit .endFrame with
  | (exec, some r) => (exec, some (.both err r))
  | (exec, none) => (exec, some err)

/-- Moves what was written to a feedback to where the next frame reads. -/
def settle (e : Executor β) (b : BufferPair) : Executor β × Option RenderError :=
  match e.submit (.copyTexture b.write b.read) with
  | (e, some r) => (e, some (RenderError.ofRefusal "R004" "CopyTexture" b.id r))
  | (e, none) => ({ e with surfaces := e.surfaces.insert b.id { b with dirty := false } }, none)

/-- The stored texture that is shown. -/
def shown? (f : Frame β) : Option String :=
  (f.exec.surfaces.get? f.current.graph.render).map fun b =>
    if b.isFeedback then b.read else f.read.getD f.current.graph.render ""

/-- Ends a frame: feedbacks settle, the render surface is shown, and the surfaces
that were written change their buffers. -/
def finish (f : Frame β) : Executor β × Option RenderError :=
  match f.exec.submit .endFrame with
  | (exec, some r) => (exec, some (.refused r))
  | (exec, none) =>
    match runList settle exec (exec.surfaces.values.filter (·.dirty)) with
    | (exec, some e) => (exec, some e)
    | (exec, none) =>
      let present := match f.shown? with
        | some t => exec.submit (.present t)
        | none => (exec, none)
      match present with
      | (exec, some r) => (exec, some (.refused r))
      | (exec, none) =>
        ({ exec with
            surfaces := exec.surfaces.map fun id b => if f.written.contains id then b.swap else b
            frames := exec.frames + 1 }, none)

end Frame

namespace Executor

variable {β : Type} [Backend β]

/-- Renders one frame.  A state without a size takes the renderer's. -/
def frame (e : Executor β) (state : FrameState) : Executor β × Option RenderError :=
  if e.disposed then (e, some .disposed)
  else match e.current with
    | none => (e, some .notLoaded)
    | some current =>
      let state :=
        if state.width = 0 || state.height = 0 then { state with width := e.width,
                                                                 height := e.height }
        else state
      match e.submit (.beginFrame state) with
      | (e, some r) => (e, some (.refused r))
      | (exec, none) =>
        let f : Frame β :=
          { exec, current, state, env := state.env, read := exec.surfaces.map fun _ b => b.read }
        match runList Frame.group f (Frame.stepGroups current.passes) with
        | (f, some err) => f.abort err
        | (f, none) => f.finish

end Executor

end EffectChain
