import EffectChain.Graph.Expand
import EffectChain.Proofs.Catalog.Decoded
import EffectChain.Proofs.Graph.Sharing

/-!
# EffectChain.Proofs.Graph.Expansion

What the parts of the expansion do, told without their branches.

* `Written.bindOutput_cases` — an output is bound to the texture of its name
  (`Expander.outputId`), and what comes out of the step is put there, in the channel of
  the name (`Descriptor.channel?`);
* `Expander.sourced_of_source?` — where an input of a pass comes from;
* `Expander.finish_cases` — what is done about the target of a step;
* `Expander.step_known` — the step of an effect that is known, in its four parts.
-/

namespace EffectChain

namespace Graph

/-! ## channels -/

/-- What a step hands on: an image, a volume and a geometry. -/
inductive Channel where
  | image
  | volume
  | geometry
  deriving DecidableEq, Repr

/-- The input that reads a channel. -/
def Channel.input : Channel → String
  | .image => "inputTex"
  | .volume => "inputTex3d"
  | .geometry => "inputGeo"

namespace Flow

/-- The texture of a channel. -/
def on (f : Flow) : Channel → Option String
  | .image => f.image
  | .volume => f.volume
  | .geometry => f.geometry

/-- A channel comes to a texture. -/
def put (f : Flow) (c : Channel) (id : String) : Flow :=
  match c with
  | .image => { f with image := some id }
  | .volume => { f with volume := some id }
  | .geometry => { f with geometry := some id }

@[simp] theorem on_put (f : Flow) (c c' : Channel) (id : String) :
    (f.put c id).on c' = if c' = c then some id else f.on c' := by
  cases c <;> cases c' <;> rfl

/-- The inputs that read what comes down the chain are those of its channels. -/
theorem channel_eq_some {f : Flow} {name id : String} :
    f.channel name = some id ↔ ∃ c : Channel, name = c.input ∧ f.on c = some id := by
  constructor
  · intro h
    unfold channel at h
    split at h
    · exact ⟨.image, rfl, h⟩
    · exact ⟨.volume, rfl, h⟩
    · exact ⟨.geometry, rfl, h⟩
    · simp at h
  · rintro ⟨c, rfl, h⟩
    cases c <;> exact h

theorem on_addParam (step : Step) (f : Flow) (p : Param) (c : Channel) :
    (addParam step f p).on c = f.on c := by
  unfold addParam
  split
  · rfl
  · split
    · rfl
    · split <;> cases c <;> rfl

/-- Parameters are not about channels. -/
@[simp] theorem on_addParams (f : Flow) (d : Descriptor) (step : Step) (c : Channel) :
    (f.addParams d step).on c = f.on c := by
  unfold addParams
  induction d.params generalizing f with
  | nil => rfl
  | cons p ps ih => rw [List.foldl_cons, ih, on_addParam]

end Flow

end Graph

open EffectChain.Graph

/-- The channel that an output of an effect comes to. -/
def Descriptor.channel? (d : Descriptor) : String → Option Channel
  | "outputTex" => some .image
  | "outputTex3d" => some .volume
  | "outputGeo" => some .geometry
  | name =>
    if name = d.outputVolume then some .volume
    else if name = d.outputGeometry then some .geometry
    else none

namespace Graph.Expander

/-- The texture that an output of a step is bound to; `last` says that the pass is the
last one of its effect. -/
def outputId (step : Step) (last : Bool) (name : String) : String :=
  match name with
  | "outputTex" =>
    match step.out, last with
    | some s, true => surfaceId s
    | _, _ => nodeId step.temp ++ "_out"
  | "outputTex3d" => nodeId step.temp ++ "_out3d"
  | "outputGeo" => nodeId step.temp ++ "_geo"
  | name => textureId (nodeId step.temp) name

/-- The output writes to the target of its step. -/
def isDirect (step : Step) (last : Bool) (name : String) : Bool :=
  name = "outputTex" && last && step.out.isSome

namespace Written

/-- What has come out of the step so far. -/
def result (w : Written) : Flow := { w.flow with image := w.image }

/-- What comes out of a step after one more output is bound to a texture. -/
def after (w : Written) (c : Option Channel) (id : String) : Flow :=
  match c with
  | some c => w.result.put c id
  | none => w.result

/-- The textures that outputs have without a declaration: images, volumes and geometry. -/
inductive Implied : TextureSpec → Prop
  | image : Implied .surface
  | volume : Implied .plainVolume
  | geometry : Implied geometrySpec

theorem Implied.sized {spec : TextureSpec} (h : Implied spec) : spec.Sized := by
  cases h with
  | image => exact .surface
  | volume => exact .plainVolume
  | geometry => exact ⟨by decide, by decide, by decide⟩

variable (step : Step) (d : Descriptor) (place : Nat) (last : Bool) (w : Written)
    (attachment name : String)

/-- An output is bound to the texture of its name, which the graph has from then on if it
is not declared; an output that has no texture is an error. -/
theorem bindOutput_cases :
    (d.texture? name = none ∧ bindOutput step d place last w attachment name =
      { w with draft := w.draft.addError step (.undeclaredTexture place name) }) ∨
    ∃ w', bindOutput step d place last w attachment name = w' ∧
      (w'.draft = w.draft ∧ (d.texture? name).isSome = true ∧
          outputId step last name = textureId (nodeId step.temp) name ∨
        ∃ spec : TextureSpec, Implied spec ∧
        w'.draft = w.draft.addTexture (outputId step last name) spec) ∧
      w'.bound = w.bound.insert attachment (outputId step last name) ∧
      w'.result = w.after (d.channel? name) (outputId step last name) ∧
      w'.direct = (w.direct || isDirect step last name) := by
  unfold bindOutput
  dsimp only
  split
  · -- the image: of the last pass it goes to the target
    refine .inr ⟨_, rfl, ?_⟩
    cases hout : step.out with
    | none =>
        have hid : outputId step last "outputTex" = nodeId step.temp ++ "_out" := by
          simp [outputId, hout]
        rw [hid]
        exact ⟨.inr ⟨.surface, .image, rfl⟩, rfl, rfl, by simp [isDirect, hout]⟩
    | some s =>
        cases last with
        | false =>
            have hid : outputId step false "outputTex" = nodeId step.temp ++ "_out" := by
              simp [outputId]
            rw [hid]
            exact ⟨.inr ⟨.surface, .image, rfl⟩, rfl, rfl, by simp [isDirect]⟩
        | true =>
            have hid : outputId step true "outputTex" = surfaceId s := by simp [outputId, hout]
            rw [hid]
            exact ⟨.inr ⟨.surface, .image, rfl⟩, rfl, rfl, by simp [isDirect, hout]⟩
  · exact .inr ⟨_, rfl, .inr ⟨.plainVolume, .volume, rfl⟩, rfl, rfl, by simp [isDirect]⟩
  · exact .inr ⟨_, rfl, .inr ⟨geometrySpec, .geometry, rfl⟩, rfl, rfl, by simp [isDirect]⟩
  · next himage hvolume hgeometry =>
      split
      · next hnone => exact .inl ⟨by simpa using hnone, rfl⟩
      · next hsome =>
          have hid : outputId step last name = textureId (nodeId step.temp) name := by
            unfold outputId
            split <;> simp_all
          have hdirect : isDirect step last name = false := by
            have hne : name ≠ "outputTex" := himage
            simp [isDirect, hne]
          have hchannel : d.channel? name = if name = d.outputVolume then some .volume
              else if name = d.outputGeometry then some .geometry else none := by
            unfold Descriptor.channel?
            split <;> simp_all
          refine .inr ⟨_, rfl, .inl ⟨rfl, by simpa [Option.isSome_iff_ne_none] using hsome, hid⟩,
            ?_, ?_, ?_⟩
          · rw [hid]
          · rw [hid, hchannel]
            split
            · rfl
            · split <;> rfl
          · simp [hdirect]

end Written

/-! ## inputs -/

/-- Where an input of a pass comes from, and whether the graph gets a surface by it. -/
inductive Sourced (x : Expander) (draft : Draft) (step : Step) (d : Descriptor) (flow : Flow)
    (name : String) : String → Bool → Prop
  /-- What the chain was written to in the frame before. -/
  | feedback {s : Surface} (h : target? x.plan.steps step.temp = some s) :
      Sourced x draft step d flow name (surfaceId s) true
  /-- What comes down the chain. -/
  | chain {c : Channel} {id : String} (hname : name = c.input) (h : flow.on c = some id) :
      Sourced x draft step d flow name id false
  /-- A surface that is given to the call. -/
  | surface {s : Surface} (h : step.args.get? name = some (.ref s)) (hkind : s.kind ≠ .temp) :
      Sourced x draft step d flow name (surfaceId s) true
  /-- The result of a chain that is given to the call. -/
  | result {s : Surface} {f : Flow} {id : String} (h : step.args.get? name = some (.ref s))
      (hkind : s.kind = .temp) (hflow : draft.flow? s.index = some f) (himage : f.image = some id) :
      Sourced x draft step d flow name id false
  /-- A texture that the effect declares. -/
  | own (h : (d.texture? name).isSome = true) :
      Sourced x draft step d flow name (textureId (nodeId step.temp) name) false

section inputs

variable {x : Expander} {draft : Draft} {step : Step} {d : Descriptor} {flow : Flow} {name : String}

theorem sourced_of_source? {id : String} {fresh : Bool}
    (h : x.source? draft step d flow name = some (id, fresh)) :
    Sourced x draft step d flow name id fresh := by
  unfold source? at h
  split at h
  · obtain ⟨s, hs, heq⟩ := Option.map_eq_some_iff.1 h
    obtain ⟨rfl, rfl⟩ := Prod.mk.inj heq
    exact .feedback hs
  · split at h
    · obtain ⟨i, hi, heq⟩ := Option.map_eq_some_iff.1 h
      obtain ⟨rfl, rfl⟩ := Prod.mk.inj heq
      obtain ⟨c, hname, hc⟩ := Flow.channel_eq_some.1 hi
      exact .chain hname hc
    · split at h
      · split at h
        · next s hs =>
            split at h
            · next hkind =>
                obtain ⟨i, hi, heq⟩ := Option.map_eq_some_iff.1 h
                obtain ⟨rfl, rfl⟩ := Prod.mk.inj heq
                obtain ⟨f, hf, himage⟩ := Option.bind_eq_some_iff.1 hi
                exact .result hs hkind hf himage
            · next hkind =>
                obtain ⟨rfl, rfl⟩ := Prod.mk.inj (Option.some.inj h)
                exact .surface hs hkind
        · simp at h
      · split at h
        · next hd =>
            obtain ⟨rfl, rfl⟩ := Prod.mk.inj (Option.some.inj h)
            exact .own hd
        · simp at h

/-- Where an input comes from depends on what came out of the steps so far alone. -/
theorem source?_flows {draft' : Draft} (h : draft'.flows = draft.flows) :
    x.source? draft' step d flow name = x.source? draft step d flow name := by
  unfold source? Draft.flow?
  rw [h]

/-- One more input of a pass. -/
def bindInput (x : Expander) (step : Step) (d : Descriptor) (flow : Flow) (place : Nat)
    (acc : Draft × Table String) (e : String × String) : Draft × Table String :=
  match x.source? acc.1 step d flow e.2 with
  | some (id, fresh) =>
    (if fresh then acc.1.addTexture id .surface else acc.1, acc.2.insert e.1 id)
  | none => (acc.1.addError step (.unresolvedInput place e.2), acc.2)

/-- Induction on the inputs of a pass, in the order of their names: one is bound to where it
comes from, or it is an error. -/
theorem bindInputs_induct (place : Nat) (inputs : Table String)
    {P : List (String × String) → Draft → Table String → Prop} (empty : P [] draft {})
    (bind : ∀ done draft' bound binding name id fresh,
      done ++ [(binding, name)] <+: inputs.entries →
      x.source? draft step d flow name = some (id, fresh) → P done draft' bound →
      P (done ++ [(binding, name)]) (if fresh then draft'.addTexture id .surface else draft')
        (bound.insert binding id))
    (fail : ∀ done draft' bound binding name, done ++ [(binding, name)] <+: inputs.entries →
      x.source? draft step d flow name = none → P done draft' bound →
      P (done ++ [(binding, name)]) (draft'.addError step (.unresolvedInput place name)) bound) :
    P inputs.entries (x.bindInputs step d flow place inputs draft).1
      (x.bindInputs step d flow place inputs draft).2 := by
  have hall : ∀ (es done : List (String × String)) (acc : Draft × Table String),
      done ++ es = inputs.entries → acc.1.flows = draft.flows → P done acc.1 acc.2 →
      P inputs.entries (es.foldl (x.bindInput step d flow place) acc).1
        (es.foldl (x.bindInput step d flow place) acc).2 := by
    intro es
    induction es with
    | nil =>
        intro done acc hes _ h
        obtain rfl : done = inputs.entries := by simpa using hes
        exact h
    | cons e es ih =>
        intro done acc hes hflows hacc
        obtain ⟨binding, name⟩ := e
        have hpre : done ++ [(binding, name)] <+: inputs.entries := ⟨es, by simpa using hes⟩
        have hrest : (done ++ [(binding, name)]) ++ es = inputs.entries := by simpa using hes
        rw [List.foldl_cons, bindInput, source?_flows hflows]
        cases hs : x.source? draft step d flow name with
        | none => exact ih _ _ hrest hflows (fail _ _ _ binding name hpre hs hacc)
        | some r =>
            obtain ⟨id, fresh⟩ := r
            refine ih _ _ hrest ?_ (bind _ _ _ binding name id fresh hpre hs hacc)
            cases fresh <;> exact hflows
  exact hall inputs.entries [] (draft, {}) rfl rfl empty

end inputs

/-! ## passes and steps -/

/-- The pass of a graph that a pass of an effect becomes. -/
def made (x : Expander) (step : Step) (d : Descriptor) (uniforms : Table Value) (place : Nat)
    (p : EffectChain.Pass) (inputs outputs : Table String) : Graph.Pass :=
  { id := nodeId step.temp ++ "_pass_" ++ toString place
    program := match d.programs.get? p.program with
      | some s => (x.program step p.program s).1
      | none => ""
    kind := p.kind
    inputs
    outputs
    uniforms := p.uniforms.entries.foldl (fun us (k, v) =>
      if us.contains k then us
      else match Value.ofDocument? v with
        | some v => us.insert k v
        | none => us) uniforms
    effect := step.op
    node := nodeId step.temp
    step := step.temp
    guards := step.guards
    repetition := step.repetition
    count := p.countText
    skipIf := p.skipIf
    runIf := p.runIf
    workgroup := [p.workgroupSize.1, p.workgroupSize.2.1, p.workgroupSize.2.2] }

/-- The outputs of a pass are bound in the order of their names. -/
def bindAll (step : Step) (d : Descriptor) (place : Nat) (outputs : Table String) (w : Written) :
    Written :=
  outputs.entries.foldl (fun w (attachment, name) =>
    bindOutput step d place (place + 1 = d.passes.length) w attachment name) { w with bound := {} }

/-- A pass binds its inputs, then its outputs, and is added to the graph. -/
theorem pass_eq (x : Expander) (step : Step) (d : Descriptor) (input : Flow)
    (uniforms : Table Value) (w : Written) (place : Nat) (p : EffectChain.Pass) :
    x.pass step d input uniforms w place p =
      let r := x.bindInputs step d input place p.inputs w.draft
      let w' := bindAll step d place p.outputs { w with draft := r.1 }
      { w' with draft := w'.draft.addPass (x.made step d uniforms place p r.2 w'.bound) } := rfl

/-- The graph gets the programs and the textures that an effect declares. -/
def declare (x : Expander) (s : Step) (d : Descriptor) (draft : Draft) : Draft :=
  (d.textures.entries ++ d.volumes.entries).foldl
    (fun draft (name, spec) => draft.addTexture (textureId (nodeId s.temp) name) spec)
    (d.programs.entries.foldl (fun draft (name, shader) =>
      draft.addProgram (x.program s name shader).1 (x.program s name shader).2) draft)

/-- What comes down the chain to a step. -/
def input (draft : Draft) (s : Step) : Flow := (s.source.bind draft.flow?).getD {}

/-- The passes of an effect. -/
def runAll (x : Expander) (s : Step) (d : Descriptor) (draft : Draft) : Written :=
  d.passes.zipIdx.foldl
    (fun w (p, i) => x.pass s d (input draft s) ((input draft s).addParams d s).uniforms w i p)
    { draft := x.declare s d draft, flow := (input draft s).addParams d s,
      image := (input draft s).image }

/-- A step of a known effect declares, runs its passes, hands on what came out of them and
brings its image to its target. -/
theorem step_known {x : Expander} {s : Step} {d : Descriptor} (h : x.lookup s.op = some d)
    (draft : Draft) :
    x.step draft s = finish s (x.runAll s d draft).result (x.runAll s d draft).image
      (x.runAll s d draft).direct
        ((x.runAll s d draft).draft.setFlow s.temp (x.runAll s d draft).result) := by
  unfold runAll step
  rw [h]
  rfl

/-- The pass that copies an image to the target of a step. -/
def copy (step : Step) (out : Flow) (image target : String) : Graph.Pass :=
  { id := nodeId step.temp ++ "_blit"
    program := "blit"
    inputs := Table.empty.insert "src" image
    outputs := Table.empty.insert "color" target
    uniforms := out.uniforms
    effect := step.op
    node := nodeId step.temp
    step := step.temp
    guards := step.guards
    repetition := { count := 0 }
    isCopy := true }

/-- Nothing is left to do about the target of a step when there is none, or a pass has
written there.  Otherwise the graph gets the target, and the image is copied there unless it
is there or there is none. -/
theorem finish_cases (step : Step) (out : Flow) (image : Option String) (direct : Bool)
    (draft : Draft) :
    ((step.out = none ∨ direct = true) ∧ finish step out image direct draft = draft) ∨
    ∃ o, step.out = some o ∧
      ((image = none ∧ finish step out image direct draft =
          (draft.addTexture (surfaceId o) .surface).addError step (.noResult o)) ∨
        (image = some (surfaceId o) ∧
          finish step out image direct draft = draft.addTexture (surfaceId o) .surface) ∨
        ∃ id, image = some id ∧ finish step out image direct draft =
          (((draft.addTexture (surfaceId o) .surface).addProgram "blit" copyShader).addPass
            (copy step out id (surfaceId o))).setFlow step.temp
              { out with image := some (surfaceId o) }) := by
  unfold finish
  cases hout : step.out with
  | none => exact .inl ⟨.inl rfl, rfl⟩
  | some o =>
      dsimp only
      cases direct with
      | true => exact .inl ⟨.inr rfl, rfl⟩
      | false =>
          refine .inr ⟨o, rfl, ?_⟩
          cases image with
          | none => exact .inl ⟨rfl, rfl⟩
          | some id =>
              by_cases heq : id = surfaceId o
              · exact .inr (.inl ⟨congrArg some heq, by simp [heq]⟩)
              · exact .inr (.inr ⟨id, rfl, by simp [heq, copy]⟩)

/-- Induction on the passes of an effect, by their places. -/
theorem runAll_induct {x : Expander} {s : Step} {d : Descriptor} {draft : Draft}
    {P : Nat → Written → Prop}
    (first : P 0 { draft := x.declare s d draft, flow := (input draft s).addParams d s,
                   image := (input draft s).image })
    (next : ∀ w i p, d.passes[i]? = some p → P i w →
      P (i + 1) (x.pass s d (input draft s) ((input draft s).addParams d s).uniforms w i p)) :
    P d.passes.length (x.runAll s d draft) := by
  unfold runAll
  exact foldl_zipIdx P _ d.passes _ first fun i p w hp hw => next w i p hp hw

end Graph.Expander

end EffectChain
