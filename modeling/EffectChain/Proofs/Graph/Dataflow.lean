import EffectChain.Proofs.Graph.Supply
import EffectChain.Proofs.Plan.Dependency

/-!
# EffectChain.Proofs.Graph.Dataflow

How results come to the passes that take them.

What a step hands on in a channel is made by its own passes, or by those of the nearest step
before it in its chain that writes the channel (`Plan.Maker`).  Where the graph of a plan has
no errors, a pass that takes a result is bound to a texture that the maker of the result has
written before (`feeds_expand`).

The lemmas follow a draft through the expansion: the outputs of a pass
(`Expander.Written.binds_all`) and its inputs (`Expander.bindInputs_sourced`), the passes of a
step (`Expander.Traced.pass`), its target (`Expander.Traced.finish`), and the steps of a plan
(`Draft.Fed.step`).
-/

namespace EffectChain

open EffectChain.Graph

/-! ## makers of results -/

/-- One of the first `n` passes of an effect writes a channel. -/
def Descriptor.Writes (d : Descriptor) (n : Nat) (c : Channel) : Prop :=
  ∃ q ∈ d.passes.take n, ∃ name ∈ q.outputs.values, d.channel? name = some c

theorem Descriptor.writes_succ {d : Descriptor} {n : Nat} {p : EffectChain.Pass}
    (hp : d.passes[n]? = some p) (c : Channel) :
    d.Writes (n + 1) c ↔ d.Writes n c ∨ ∃ name ∈ p.outputs.values, d.channel? name = some c := by
  simp [Writes, List.take_add_one, hp, or_and_right, exists_or]

/-- The passes of a step make what it hands on in a channel: one of them writes the channel,
or brings the image to the surface that the step is written to. -/
def Step.Makes (s : Step) (d : Descriptor) (c : Channel) : Prop :=
  d.Writes d.passes.length c ∨ c = .image ∧ s.out.isSome = true

/-- The step whose passes make what the step with the given number hands on in a channel. -/
inductive Plan.Maker (p : Plan) (lookup : String → Option Descriptor) (c : Channel) :
    Nat → Step → Prop
  | own {s : Step} {d : Descriptor} (hs : s ∈ p.steps) (hd : lookup s.op = some d)
      (makes : s.Makes d c) :
      Maker p lookup c s.temp s
  /-- A step that does not write the channel hands on what comes down its chain. -/
  | handed {s m : Step} {d : Descriptor} {t : Nat} (hs : s ∈ p.steps) (hd : lookup s.op = some d)
      (makes : ¬ s.Makes d c) (hsource : s.source = some t) (before : Maker p lookup c t m) :
      Maker p lookup c s.temp m

/-- Where the result of a step is, in a channel that it makes: the image at the target of the
step, everything else in a texture that its effect declares. -/
def Step.Holds (s : Step) (id : String) : Channel → Prop
  | .image => id = (s.out.map surfaceId).getD (nodeId s.temp ++ "_out")
  | .volume | .geometry => ∃ name, id = textureId (nodeId s.temp) name

/-- An input of a step is the result of the step with the given number: what comes down the
chain in a channel, or the image of a chain that is given as an argument. -/
inductive Step.TakesResult (s : Step) (d : Descriptor) (name : String) : Channel → Nat → Prop
  | chain {c : Channel} {t : Nat} (hname : name = c.input) (hsource : s.source = some t) :
      TakesResult s d name c t
  | argument {t : Nat} (hname : isConventionInput name = false)
      (hsurface : ((d.param? name).map Param.isSurface).getD false = true)
      (hvalue : s.args.get? name = some (.ref ⟨.temp, t⟩)) : TakesResult s d name .image t

/-- What the expansion relies on: the steps of a plan are a forest, and they are written to
outputs and feedbacks. -/
structure Plan.Linked (p : Plan) : Prop where
  forest : ∃ roots, Forest 0 p.steps roots
  writable : ∀ s ∈ p.steps, ∀ o, s.out = some o → o.Writable

theorem Plan.linked_compile {registry : Registry} (hr : registry.ops.Built) {source : Bytes}
    {options : Options} {p : Plan} (h : Plan.compile source registry options = .ok p) :
    p.Linked := by
  obtain ⟨program, hparse, hplan⟩ := Plan.compile_eq_ok_iff.1 h
  exact ⟨(kept_forest hr).plan hparse hplan, Plan.writable_compile h⟩

/-- What a chain hands on is made by steps that are not written anywhere. -/
theorem Plan.Maker.unwritten {p : Plan} (hp : p.Linked) {lookup : String → Option Descriptor}
    {c : Channel} {t : Nat} {m : Step} (h : p.Maker lookup c t m) {s : Step} (hs : s ∈ p.steps)
    (hsource : s.source = some t) :
    m.out = none := by
  induction h generalizing s with
  | @own m d hm hd makes =>
      obtain ⟨roots, hforest⟩ := hp.forest
      obtain ⟨u, hu, hutemp, -, -, -, hunwritten⟩ :=
        hforest.linked hs (n := m.temp) (Step.mem_uses.2 (.inl hsource))
      obtain rfl := hforest.eq_of_temp hm hu hutemp.symm
      exact hunwritten hsource
  | handed hs' _ _ hsource' _ ih => exact ih hs' hsource'

namespace Graph

/-! ## names -/

/-- The texture belongs to the step with the given number. -/
def Private (n : Nat) (id : String) : Prop := ∃ rest, id = nodeId n ++ "_" ++ rest

/-- A texture belongs to one step. -/
theorem Private.inj {m n : Nat} {id : String} (h : Private m id) (h' : Private n id) : m = n := by
  obtain ⟨r, rfl⟩ := h
  obtain ⟨r', h'⟩ := h'
  have hlist := congrArg String.toList h'
  simp only [nodeId, String.toList_append, List.append_assoc] at hlist
  exact (toString_append_inj (by simp) (by simp) (List.append_cancel_left hlist)).1

/-- A texture that belongs to a step lives within a frame. -/
theorem Private.transient {n : Nat} {id : String} (h : Private n id) : isPersistent id = false := by
  obtain ⟨rest, rfl⟩ := h
  simp [isPersistent, isFeedback, isSource, nodeId]

/-- A surface that can be written to keeps its content. -/
theorem persistent_surfaceId {o : Surface} (h : o.Writable) :
    isPersistent (surfaceId o) = true := by
  rcases h with h | h
    <;> simp [isPersistent, isFeedback, surfaceId, h, String.startsWith_string_iff]

/-- A texture of a step is persistent or private to it. -/
theorem persistent_or_private_textureId (n : Nat) (name : String) :
    isPersistent (textureId (nodeId n) name) = true ∨ Private n (textureId (nodeId n) name) := by
  unfold textureId
  split
  · left
    simp [isPersistent, String.startsWith_string_iff]
  · exact .inr ⟨name, rfl⟩

/-- The name of a pass of a step. -/
def passId (s : Step) (place : Nat) : String := nodeId s.temp ++ "_pass_" ++ toString place

/-- A pass of the step writes the texture. -/
def Wrote (passes : List Pass) (s : Step) (id : String) : Prop :=
  ∃ v ∈ passes, v.step = s.temp ∧ id ∈ v.outputs.values

theorem Wrote.append {passes : List Pass} {s : Step} {id : String} (h : Wrote passes s id)
    (more : List Pass) :
    Wrote (passes ++ more) s id := by
  obtain ⟨v, hv, hwrote⟩ := h
  exact ⟨v, List.mem_append_left _ hv, hwrote⟩

namespace Expander

variable {x : Expander} {step : Step} {d : Descriptor}

/-- An output of a step keeps its content or belongs to the step. -/
theorem persistent_or_private_outputId (hout : ∀ o, step.out = some o → o.Writable) (last : Bool)
    (name : String) :
    isPersistent (outputId step last name) = true ∨
    Private step.temp (outputId step last name) := by
  unfold outputId
  split
  · split
    · next o hs => exact .inl (persistent_surfaceId (hout o hs))
    · exact .inr ⟨"out", by rw [String.append_assoc]; rfl⟩
  · exact .inr ⟨"out3d", by rw [String.append_assoc]; rfl⟩
  · exact .inr ⟨"geo", by rw [String.append_assoc]; rfl⟩
  · exact persistent_or_private_textureId step.temp name

/-- The image is written under one name. -/
theorem channel?_eq_image {name : String} (h : d.channel? name = some .image) :
    name = "outputTex" := by
  unfold Descriptor.channel? at h
  split at h
  · rfl
  · cases h
  · cases h
  · split at h
    · cases h
    · split at h <;> cases h

/-- An image of the last pass is written to the target of its step. -/
theorem outputId_direct {o : Surface} (ho : step.out = some o) {name : String}
    (hname : d.channel? name = some .image) : outputId step true name = surfaceId o := by
  rw [channel?_eq_image hname]
  simp [outputId, ho]

/-- What a step writes is where its result is, if the step is not written anywhere. -/
theorem holds_outputId {c : Channel} (hout : c = .image → step.out = none) {name : String}
    (hname : d.channel? name = some c) (last : Bool) : step.Holds (outputId step last name) c := by
  have hdeclared : c ≠ .image → ∃ n, outputId step last name = textureId (nodeId step.temp) n := by
    intro hc
    unfold outputId
    split
    · exact absurd (Option.some.inj hname).symm hc
    · exact ⟨"out3d", by rw [textureId]; simp [String.append_assoc]⟩
    · exact ⟨"geo", by rw [textureId]; simp [String.append_assoc]⟩
    · exact ⟨name, rfl⟩
  cases c with
  | image =>
      rw [channel?_eq_image hname]
      simp [Step.Holds, outputId, hout rfl]
  | volume => exact hdeclared (by simp)
  | geometry => exact hdeclared (by simp)

/-! ## outputs -/

/-- What binding outputs of a pass comes to when there are no errors: each is bound to the
texture of its name, and a channel comes to the last of them that writes it. -/
structure Written.Binds (step : Step) (d : Descriptor) (last : Bool) (outs : List (String × String))
    (w w' : Written) : Prop where
  errors : w.draft.graph.errors = []
  passes : w'.draft.graph.passes = w.draft.graph.passes
  flows : w'.draft.flows = w.draft.flows
  bound : ∀ e ∈ outs, w'.bound.get? e.1 = some (outputId step last e.2)
  others : ∀ a, a ∉ outs.map (·.1) → w'.bound.get? a = w.bound.get? a
  result : ∀ c,
    (∃ e ∈ outs, d.channel? e.2 = some c ∧ w'.result.on c = some (outputId step last e.2)) ∨
    (∀ e ∈ outs, d.channel? e.2 ≠ some c) ∧ w'.result.on c = w.result.on c
  direct : w'.direct = true → w.direct = true ∨
    last = true ∧ step.out.isSome = true ∧ ∃ e ∈ outs, d.channel? e.2 = some .image

/-- A clean output is bound to its attachment. -/
theorem Written.binds_output (place : Nat) (last : Bool) (w : Written) (attachment name : String)
    (hclean : (bindOutput step d place last w attachment name).draft.graph.errors = []) :
    Written.Binds step d last [(attachment, name)] w
      (bindOutput step d place last w attachment name) := by
  rcases Written.bindOutput_cases step d place last w attachment name with ⟨-, heq⟩ |
    ⟨w', heq, hdraft, hbound, hresult, hdirect⟩
  · simp [heq, Draft.addError] at hclean
  · rw [heq] at hclean ⊢
    have hsame : w.draft.graph.errors = [] ∧ w'.draft.graph.passes = w.draft.graph.passes ∧
        w'.draft.flows = w.draft.flows := by
      rcases hdraft with ⟨hsame, -⟩ | ⟨spec, -, hadded⟩
      · rw [hsame] at hclean ⊢
        exact ⟨hclean, rfl, rfl⟩
      · rw [hadded] at hclean ⊢
        exact ⟨hclean, rfl, rfl⟩
    refine ⟨hsame.1, hsame.2.1, hsame.2.2, by simp [hbound], ?_, fun c => ?_, fun h => ?_⟩
    · intro a ha
      have hne : a ≠ attachment := by simpa using ha
      simp [hbound, hne]
    · rw [hresult]
      by_cases hc : d.channel? name = some c
      · exact .inl ⟨_, List.mem_singleton_self _, hc, by simp [Written.after, hc]⟩
      · refine .inr ⟨by simpa using hc, ?_⟩
        unfold Written.after
        split
        · next c' hc' =>
            have hne : c ≠ c' := fun h => hc (h ▸ hc')
            simp [hne]
        · rfl
    · rw [hdirect, Bool.or_eq_true] at h
      refine h.imp_right fun h => ?_
      simp only [isDirect, Bool.and_eq_true, decide_eq_true_eq] at h
      exact ⟨h.1.2, h.2, _, List.mem_singleton_self _, by simp [h.1.1, Descriptor.channel?]⟩

/-- Outputs with different names are bound one after another. -/
theorem Written.Binds.trans {last : Bool} {outs outs' : List (String × String)} {w w' w'' : Written}
    (h : Written.Binds step d last outs w w') (h' : Written.Binds step d last outs' w' w'')
    (hdisjoint : ∀ e ∈ outs, e.1 ∉ outs'.map (·.1)) :
    Written.Binds step d last (outs ++ outs') w w'' where
  errors := h.errors
  passes := h'.passes.trans h.passes
  flows := h'.flows.trans h.flows
  bound e he := by
    rcases List.mem_append.1 he with he | he
    · rw [h'.others _ (hdisjoint e he), h.bound e he]
    · exact h'.bound e he
  others a ha := by
    rw [List.map_append, List.mem_append, not_or] at ha
    rw [h'.others a ha.2, h.others a ha.1]
  result c := by
    rcases h'.result c with ⟨e, he, hc, hon⟩ | ⟨hnone', hon'⟩
    · exact .inl ⟨e, List.mem_append_right _ he, hc, hon⟩
    · rcases h.result c with ⟨e, he, hc, hon⟩ | ⟨hnone, hon⟩
      · exact .inl ⟨e, List.mem_append_left _ he, hc, hon'.trans hon⟩
      · refine .inr ⟨fun e he => ?_, hon'.trans hon⟩
        exact (List.mem_append.1 he).elim (hnone e) (hnone' e)
  direct hw := by
    rcases h'.direct hw with hw | ⟨hlast, hout, e, he, hc⟩
    · refine (h.direct hw).imp_right ?_
      rintro ⟨hlast, hout, e, he, hc⟩
      exact ⟨hlast, hout, e, List.mem_append_left _ he, hc⟩
    · exact .inr ⟨hlast, hout, e, List.mem_append_right _ he, hc⟩

/-- All outputs of a clean pass are bound. -/
theorem Written.binds_all (place : Nat) (outputs : Table String) (w : Written)
    (hclean : (bindAll step d place outputs w).draft.graph.errors = []) :
    Written.Binds step d (place + 1 = d.passes.length) outputs.entries { w with bound := {} }
      (bindAll step d place outputs w) := by
  have hall : ∀ (es : List (String × String)) (w : Written), es.Pairwise (fun a b => a.1 < b.1) →
      ∀ w', es.foldl (fun w e =>
        bindOutput step d place (place + 1 = d.passes.length) w e.1 e.2) w = w' →
      w'.draft.graph.errors = [] → Written.Binds step d (place + 1 = d.passes.length) es w w' := by
    intro es
    induction es with
    | nil =>
        rintro w - w' rfl hclean
        exact ⟨hclean, rfl, rfl, by simp, by simp, fun c => .inr ⟨by simp, rfl⟩, .inl⟩
    | cons e es ih =>
        rintro w hsorted w' hw' hclean
        obtain ⟨hlt, hsorted⟩ := List.pairwise_cons.1 hsorted
        have hrest := ih _ hsorted w' hw' hclean
        refine (Written.binds_output place _ w e.1 e.2 hrest.errors).trans hrest ?_
        simp only [List.mem_singleton, forall_eq, List.mem_map, not_exists, not_and]
        exact fun e' he' heq => String.lt_irrefl _ (heq ▸ hlt e' he')
  exact hall outputs.entries _ outputs.sorted _ rfl hclean

/-! ## inputs -/

/-- Without errors every input of a pass is bound to where it comes from. -/
theorem bindInputs_sourced {flow : Flow} {place : Nat} {inputs : Table String} {draft : Draft}
    (hclean : (x.bindInputs step d flow place inputs draft).1.graph.errors = []) :
    draft.graph.errors = [] ∧
      (x.bindInputs step d flow place inputs draft).1.graph.passes = draft.graph.passes ∧
      (x.bindInputs step d flow place inputs draft).1.flows = draft.flows ∧
      ∀ binding name, inputs.get? binding = some name →
        ∃ id fresh, x.source? draft step d flow name = some (id, fresh) ∧
          (x.bindInputs step d flow place inputs draft).2.get? binding = some id := by
  suffices hall : draft.graph.errors = [] ∧
      (x.bindInputs step d flow place inputs draft).1.graph.passes = draft.graph.passes ∧
      (x.bindInputs step d flow place inputs draft).1.flows = draft.flows ∧
      ∀ e ∈ inputs.entries, ∃ id fresh, x.source? draft step d flow e.2 = some (id, fresh) ∧
        (x.bindInputs step d flow place inputs draft).2.get? e.1 = some id from
    ⟨hall.1, hall.2.1, hall.2.2.1, fun binding name h => hall.2.2.2 _ (Table.mem_entries_iff.2 h)⟩
  revert hclean
  refine bindInputs_induct place inputs (P := fun done draft' bound => draft'.graph.errors = [] →
    draft.graph.errors = [] ∧ draft'.graph.passes = draft.graph.passes ∧
      draft'.flows = draft.flows ∧
      ∀ e ∈ done, ∃ id fresh, x.source? draft step d flow e.2 = some (id, fresh) ∧
        bound.get? e.1 = some id)
    (fun h => ⟨h, rfl, rfl, by simp⟩) ?_ ?_
  · intro done draft' bound binding name id fresh hpre hs ih hclean
    have hsame : draft'.graph.errors = [] ∧
        (if fresh then draft'.addTexture id .surface else draft').graph.passes =
          draft'.graph.passes ∧
        (if fresh then draft'.addTexture id .surface else draft').flows = draft'.flows := by
      cases fresh <;> exact ⟨hclean, rfl, rfl⟩
    obtain ⟨herrors, hpasses, hflows, hbound⟩ := ih hsame.1
    refine ⟨herrors, hsame.2.1.trans hpasses, hsame.2.2.trans hflows, fun e he => ?_⟩
    -- the names before this one are smaller
    have hsorted : (done ++ [(binding, name)]).Pairwise fun a b => a.1 < b.1 :=
      inputs.sorted.sublist hpre.sublist
    rcases List.mem_append.1 he with he | he
    · obtain ⟨id', fresh', hs', hget⟩ := hbound e he
      have hlt : e.1 < binding :=
        (List.pairwise_append.1 hsorted).2.2 e he _ (List.mem_singleton_self _)
      exact ⟨id', fresh', hs', by rw [Table.get?_insert, if_neg (String.ne_of_lt hlt), hget]⟩
    · obtain rfl := List.mem_singleton.1 he
      exact ⟨id, fresh, hs, by simp⟩
  · intro done draft' bound binding name _ _ _ hclean
    simp [Draft.addError] at hclean

/-! ## passes -/

/-- What the pass of an effect at the given place has become, over the draft before its step. -/
structure Placed (x : Expander) (draft : Draft) (s : Step) (d : Descriptor) (place : Nat)
    (p : EffectChain.Pass) (q : Graph.Pass) : Prop where
  id : q.id = passId s place
  step : q.step = s.temp
  inputs : ∀ binding name, p.inputs.get? binding = some name →
    ∃ id fresh, x.source? draft s d (input draft s) name = some (id, fresh) ∧
      q.inputs.get? binding = some id
  outputs : ∀ id ∈ q.outputs.values, isPersistent id = true ∨ Private s.temp id

/-- What has come of the first `n` passes of an effect: each channel they write comes to a
texture that one of them has written, and the others come to what they came to before. -/
structure Traced (x : Expander) (draft : Draft) (s : Step) (d : Descriptor) (n : Nat)
    (w : Written) : Prop where
  flows : w.draft.flows = draft.flows
  passes : ∃ own, w.draft.graph.passes = draft.graph.passes ++ own ∧ own.length = n ∧
    ∀ i q, own[i]? = some q → ∃ p, d.passes[i]? = some p ∧ Placed x draft s d i p q
  result : ∀ c, (d.Writes n c ∧ ∃ last name, d.channel? name = some c ∧
      w.result.on c = some (outputId s last name) ∧
        Wrote w.draft.graph.passes s (outputId s last name)) ∨
    ¬ d.Writes n c ∧ w.result.on c = (input draft s).on c
  direct : w.direct = true → n = d.passes.length ∧ d.Writes n .image ∧
    ∃ o, s.out = some o ∧ w.result.image = some (surfaceId o)

/-- What an effect declares is neither an error nor a pass. -/
theorem declare_same (x : Expander) (s : Step) (d : Descriptor) (draft : Draft) :
    (x.declare s d draft).graph.errors = draft.graph.errors ∧
      (x.declare s d draft).graph.passes = draft.graph.passes ∧ (x.declare s d draft).flows =
        draft.flows := by
  let P : Draft → Prop := fun draft' => draft'.graph.errors = draft.graph.errors ∧
    draft'.graph.passes = draft.graph.passes ∧ draft'.flows = draft.flows
  have hprograms := List.foldlRecOn (motive := P) d.programs.entries (fun draft e =>
    draft.addProgram (x.program s e.1 e.2).1 (x.program s e.1 e.2).2) ⟨rfl, rfl, rfl⟩
      fun _ ih _ _ => ih
  exact List.foldlRecOn (motive := P) (d.textures.entries ++ d.volumes.entries) (fun draft e =>
    draft.addTexture (textureId (nodeId s.temp) e.1) e.2) hprograms fun _ ih _ _ => ih

section passes

variable {draft : Draft} {s : Step} {n : Nat} {w : Written} {p : EffectChain.Pass}
    {uniforms : Table Value}

theorem pass_clean (h : (x.pass s d (input draft s) uniforms w n p).draft.graph.errors = []) :
    w.draft.graph.errors = [] := by
  rw [pass_eq] at h
  exact (bindInputs_sourced (Written.binds_all n p.outputs _ h).errors).1

/-- One more pass of the effect. -/
theorem Traced.pass (h : Traced x draft s d n w) (hout : ∀ o, s.out = some o → o.Writable)
    (hp : d.passes[n]? = some p)
    (hclean : (x.pass s d (input draft s) uniforms w n p).draft.graph.errors = []) :
    Traced x draft s d (n + 1) (x.pass s d (input draft s) uniforms w n p) := by
  rw [pass_eq] at hclean ⊢
  dsimp only at hclean ⊢
  generalize hr : x.bindInputs s d (input draft s) n p.inputs w.draft = r at hclean ⊢
  have hbinds := Written.binds_all n p.outputs { w with draft := r.1 } hclean
  have hinputs := bindInputs_sourced (hr ▸ hbinds.errors :
    (x.bindInputs s d (input draft s) n p.inputs w.draft).1.graph.errors = [])
  rw [hr] at hinputs
  obtain ⟨-, hpasses, hflows, hsourced⟩ := hinputs
  generalize bindAll s d n p.outputs { w with draft := r.1 } = w' at hclean hbinds ⊢
  have hpasses' : w'.draft.graph.passes = w.draft.graph.passes := hbinds.passes.trans hpasses
  have hlt : n < d.passes.length := (List.getElem?_eq_some_iff.1 hp).1
  obtain ⟨own, hown, hlength, hplaced⟩ := h.passes
  refine ⟨hbinds.flows.trans (hflows.trans h.flows),
    ⟨own ++ [x.made s d uniforms n p r.2 w'.bound], ?_, ?_, ?_⟩, fun c => ?_, ?_⟩
  · show w'.draft.graph.passes ++ [_] = _
    rw [hpasses', hown, List.append_assoc]
  · simp [hlength]
  · intro i q hq
    by_cases hi : i < own.length
    · exact hplaced i q (by rwa [List.getElem?_append_left hi] at hq)
    · have hsome := (List.getElem?_eq_some_iff.1 hq).1
      obtain rfl : i = own.length := by simp at hsome; omega
      obtain rfl : _ = q := by simpa using hq
      rw [hlength]
      refine ⟨p, hp, rfl, rfl, fun binding name hname => ?_, fun id hid => ?_⟩
      · obtain ⟨id, fresh, hs, hget⟩ := hsourced binding name hname
        exact ⟨id, fresh, by rw [← hs, source?_flows h.flows], hget⟩
      · obtain ⟨a, ha⟩ := Table.mem_values_iff.1 hid
        have ha : w'.bound.get? a = some id := ha
        have hmem : a ∈ p.outputs.entries.map (·.1) := by
          by_contra hnot
          rw [hbinds.others a hnot] at ha
          simp at ha
        obtain ⟨e, he, rfl⟩ := List.mem_map.1 hmem
        obtain rfl := Option.some.inj ((hbinds.bound e he).symm.trans ha)
        exact persistent_or_private_outputId hout _ e.2
  · show (_ ∧ ∃ last name, _ ∧ w'.result.on c = _ ∧ Wrote (w'.draft.graph.passes ++ [_]) s _) ∨
      _ ∧ w'.result.on c = _
    rw [d.writes_succ hp, hpasses']
    rcases hbinds.result c with ⟨e, he, hc, hon⟩ | ⟨hnone, hon⟩
    · have hvalue := Table.mem_values_iff.2 ⟨e.1, hbinds.bound e he⟩
      exact .inl ⟨.inr ⟨e.2, List.mem_map_of_mem he, hc⟩, _, e.2, hc, hon, _,
        List.mem_append_right _ List.mem_cons_self, rfl, hvalue⟩
    · rw [hon]
      rcases h.result c with ⟨hwrites, last, name, hc, hid, hwrote⟩ | ⟨hnot, hid⟩
      · exact .inl ⟨.inl hwrites, last, name, hc, hid, hwrote.append _⟩
      · refine .inr ⟨not_or.2 ⟨hnot, ?_⟩, hid⟩
        rintro ⟨name, hname, hc⟩
        obtain ⟨e, he, rfl⟩ := List.mem_map.1 hname
        exact hnone e he hc
  · show w'.direct = true → _ ∧ _ ∧ ∃ o, _ ∧ w'.result.on .image = _
    intro hw
    rcases hbinds.direct hw with hw | ⟨hlast, hsome, e, he, hc⟩
    · have hn := (h.direct hw).1
      omega
    · obtain ⟨o, ho⟩ := Option.isSome_iff_exists.1 hsome
      rcases hbinds.result .image with ⟨e', -, hc', hon⟩ | ⟨hnone, -⟩
      · rw [hlast, outputId_direct ho hc'] at hon
        exact ⟨by simpa using hlast,
          (d.writes_succ hp _).2 (.inr ⟨e.2, List.mem_map_of_mem he, hc⟩), o, ho, hon⟩
      · exact absurd hc (hnone e he)

/-- All passes of the effect. -/
theorem traced_runAll (hout : ∀ o, s.out = some o → o.Writable)
    (hclean : (x.runAll s d draft).draft.graph.errors = []) :
    draft.graph.errors = [] ∧ Traced x draft s d d.passes.length (x.runAll s d draft) := by
  refine runAll_induct (P := fun n w => w.draft.graph.errors = [] →
    draft.graph.errors = [] ∧ Traced x draft s d n w) (fun h => ?_) (fun w i p hp ih h => ?_) hclean
  · obtain ⟨herrors, hpasses, hflows⟩ := declare_same x s d draft
    have hnone : ∀ c, ¬ d.Writes 0 c := by simp [Descriptor.Writes]
    have hon : ∀ c,
        Flow.on { (input draft s).addParams d s with image := (input draft s).image } c =
        (input draft s).on c := by
      intro c
      cases c with
      | image => rfl
      | volume => exact Flow.on_addParams (input draft s) d s .volume
      | geometry => exact Flow.on_addParams (input draft s) d s .geometry
    exact ⟨herrors.symm.trans h, hflows, ⟨[], by simp [hpasses], rfl, by simp⟩,
      fun c => .inr ⟨hnone c, hon c⟩, by simp⟩
  · obtain ⟨hbefore, htraced⟩ := ih (pass_clean h)
    exact ⟨hbefore, htraced.pass hout hp h⟩

/-- What a step of a known effect adds to a draft: its passes, and what it hands on. -/
structure Stepped (x : Expander) (draft : Draft) (s : Step) (d : Descriptor) (draft' : Draft) :
    Prop where
  passes : ∃ own, draft'.graph.passes = draft.graph.passes ++ own ∧
    (∀ i p, d.passes[i]? = some p → ∃ q, own[i]? = some q ∧ Placed x draft s d i p q) ∧
    ∀ q ∈ own, q.step = s.temp ∧ ∀ id ∈ q.outputs.values, isPersistent id = true ∨ Private s.temp id
  flow : ∃ f, (∀ t, draft'.flow? t = if t = s.temp then some f else draft.flow? t) ∧
    ∀ c id, f.on c = some id → (s.Makes d c ∧ s.Holds id c ∧ Wrote draft'.graph.passes s id) ∨
      ¬ s.Makes d c ∧ (input draft s).on c = some id

/-- The flow of a step after one is set. -/
theorem flow?_setFlow (draft : Draft) (t : Nat) (f : Flow) (t' : Nat) :
    (draft.setFlow t f).flow? t' = if t' = t then some f else draft.flow? t' := by
  by_cases h : t' = t
  · subst h
    simp [Draft.flow?, Draft.setFlow]
  · have hne : (t' == t) = false := by simpa using h
    simp [Draft.flow?, Draft.setFlow, List.lookup_cons, h, hne]

/-- The passes of an effect stand at their places among those of the step. -/
theorem Traced.placed (h : Traced x draft s d d.passes.length w) :
    ∃ own, w.draft.graph.passes = draft.graph.passes ++ own ∧
      (∀ i p, d.passes[i]? = some p → ∃ q, own[i]? = some q ∧ Placed x draft s d i p q) ∧
      ∀ q ∈ own, q.step = s.temp ∧ ∀ id ∈ q.outputs.values, isPersistent id = true ∨
      Private s.temp id := by
  obtain ⟨own, hown, hlength, hplaced⟩ := h.passes
  refine ⟨own, hown, fun i p hp => ?_, fun q hq => ?_⟩
  · have hi : i < own.length := hlength ▸ (List.getElem?_eq_some_iff.1 hp).1
    obtain ⟨p', hp', hq⟩ := hplaced i own[i] (List.getElem?_eq_getElem hi)
    obtain rfl := Option.some.inj (hp.symm.trans hp')
    exact ⟨own[i], List.getElem?_eq_getElem hi, hq⟩
  · obtain ⟨i, hi⟩ := List.getElem?_of_mem hq
    obtain ⟨p, -, hq⟩ := hplaced i q hi
    exact ⟨hq.step, hq.outputs⟩

/-- What the passes of a step hand on is what the step makes, unless the image has still to
be brought to its target. -/
theorem Traced.makes (h : Traced x draft s d d.passes.length w) {c : Channel}
    (hdone : c = .image → ∀ o, s.out = some o →
      d.Writes d.passes.length .image ∧ w.result.image = some (surfaceId o)) {id : String}
    (hid : w.result.on c = some id) :
    (s.Makes d c ∧ s.Holds id c ∧ Wrote w.draft.graph.passes s id) ∨
      ¬ s.Makes d c ∧ (input draft s).on c = some id := by
  rcases h.result c with ⟨hwrites, last, name, hname, hid', hwrote⟩ | ⟨hnot, hon⟩
  · obtain rfl := Option.some.inj (hid.symm.trans hid')
    refine .inl ⟨.inl hwrites, ?_, hwrote⟩
    by_cases hout : c = .image → s.out = none
    · exact holds_outputId hout hname last
    · rw [Classical.not_imp] at hout
      obtain ⟨rfl, hout⟩ := hout
      obtain ⟨o, ho⟩ := Option.ne_none_iff_exists'.1 hout
      have himage : w.result.on .image = some (surfaceId o) := (hdone rfl o ho).2
      rw [hid'] at himage
      simp [Step.Holds, ho, Option.some.inj himage]
  · refine .inr ⟨?_, hon.symm.trans hid⟩
    rintro (hwrites | ⟨rfl, hout⟩)
    · exact hnot hwrites
    · obtain ⟨o, ho⟩ := Option.isSome_iff_exists.1 hout
      exact hnot (hdone rfl o ho).1

/-- A step that is finished cleanly was clean before. -/
theorem finish_clean {out : Flow} {image : Option String} {direct : Bool}
    (h : (Expander.finish s out image direct draft).graph.errors = []) :
    draft.graph.errors = [] := by
  rcases finish_cases s out image direct draft with ⟨-, heq⟩
    | ⟨o, -, ⟨-, heq⟩ | ⟨-, heq⟩ | ⟨image, -, heq⟩⟩ <;>
    rw [heq] at h
  · exact h
  · simp [Draft.addError] at h
  · exact h
  · exact h

/-- The result of a step is brought to its target. -/
theorem Traced.finish (h : Traced x draft s d d.passes.length w)
    (hout : ∀ o, s.out = some o → o.Writable)
    (hfresh : ∀ o, s.out = some o → (input draft s).image ≠ some (surfaceId o))
    (hclean : (Expander.finish s w.result w.image w.direct
      (w.draft.setFlow s.temp w.result)).graph.errors = []) :
    Stepped x draft s d
      (Expander.finish s w.result w.image w.direct (w.draft.setFlow s.temp w.result)) := by
  have hflow : ∀ (f : Flow) t, (w.draft.setFlow s.temp f).flow? t = if t = s.temp then some f
      else draft.flow? t := by
    intro f t
    rw [flow?_setFlow, Draft.flow?, h.flows]
    rfl
  rcases finish_cases s w.result w.image w.direct (w.draft.setFlow s.temp w.result) with
    ⟨hdone, heq⟩ | ⟨o, ho, ⟨-, heq⟩ | ⟨himage, heq⟩ | ⟨image, -, heq⟩⟩
  · rw [heq]
    refine ⟨h.placed, w.result, hflow _, fun c id => h.makes fun _ o ho => ?_⟩
    rcases hdone with hnone | hdirect
    · simp [hnone] at ho
    · obtain ⟨-, hwrites, o', ho', himage⟩ := h.direct hdirect
      obtain rfl := Option.some.inj (ho.symm.trans ho')
      exact ⟨hwrites, himage⟩
  · rw [heq] at hclean
    simp [Draft.addError] at hclean
  · rw [heq]
    refine ⟨h.placed, w.result, hflow _, fun c id => h.makes fun _ o' ho' => ?_⟩
    obtain rfl := Option.some.inj (ho.symm.trans ho')
    refine ⟨?_, himage⟩
    -- the image has not come down the chain to the target
    rcases h.result .image with ⟨hwrites, -⟩ | ⟨-, hon⟩
    · exact hwrites
    · exact absurd (hon.symm.trans himage) (hfresh o ho)
  · rw [heq]
    obtain ⟨own, hown, hplaced, houtputs⟩ := h.placed
    have hvalues : (copy s w.result image (surfaceId o)).outputs.values = [surfaceId o] := rfl
    refine ⟨⟨own ++ [copy s w.result image (surfaceId o)], ?_, fun i p hp => ?_, fun q hq => ?_⟩,
      { w.result with image := some (surfaceId o) }, fun t => ?_, fun c id hid => ?_⟩
    · show w.draft.graph.passes ++ [_] = _
      rw [hown, List.append_assoc]
    · obtain ⟨q, hq, hpq⟩ := hplaced i p hp
      exact ⟨q, by rw [List.getElem?_append_left (List.getElem?_eq_some_iff.1 hq).1, hq], hpq⟩
    · rcases List.mem_append.1 hq with hq | hq
      · exact houtputs q hq
      · obtain rfl := List.mem_singleton.1 hq
        refine ⟨rfl, fun id hid => ?_⟩
        rw [hvalues, List.mem_singleton] at hid
        exact .inl (hid ▸ persistent_surfaceId (hout o ho))
    · have hbefore := hflow w.result t
      rw [flow?_setFlow]
      by_cases ht : t = s.temp
      · simp [ht]
      · rw [if_neg ht] at hbefore ⊢
        rw [if_neg ht]
        exact hbefore
    · show (_ ∧ _ ∧ Wrote (w.draft.graph.passes ++ [_]) s id) ∨ _
      have hothers : c ≠ .image → w.result.on c = some id →
          (s.Makes d c ∧ s.Holds id c ∧
            Wrote (w.draft.graph.passes ++ [copy s w.result image (surfaceId o)]) s id) ∨
            ¬ s.Makes d c ∧ (input draft s).on c = some id := by
        intro hne hid
        refine (h.makes (fun heq => absurd heq hne) hid).imp_left ?_
        rintro ⟨hmakes, hholds, hwrote⟩
        exact ⟨hmakes, hholds, hwrote.append _⟩
      cases c with
      | image =>
          obtain rfl : surfaceId o = id := Option.some.inj hid
          exact .inl ⟨.inr ⟨rfl, by simp [ho]⟩, by simp [Step.Holds, ho], _,
            List.mem_append_right _ List.mem_cons_self, rfl,
              by rw [hvalues]; exact List.mem_cons_self⟩
      | volume => exact hothers (by simp) hid
      | geometry => exact hothers (by simp) hid

/-- A step that brings no errors is one of a known effect, and there were none before it. -/
theorem known_of_clean (hout : ∀ o, s.out = some o → o.Writable)
    (hclean : (x.step draft s).graph.errors = []) :
    draft.graph.errors = [] ∧ ∃ d, x.lookup s.op = some d ∧
      ((∀ o, s.out = some o → (input draft s).image ≠ some (surfaceId o)) →
        Stepped x draft s d (x.step draft s)) := by
  cases hd : x.lookup s.op with
  | none =>
      have hstep : x.step draft s = Expander.finish s (input draft s) (input draft s).image false
          ((draft.addError s (.unknownEffect s.op)).setFlow s.temp (input draft s)) := by
        unfold Expander.step
        rw [hd]
        rfl
      rw [hstep] at hclean
      have herror := finish_clean hclean
      simp [Draft.addError, Draft.setFlow] at herror
  | some d =>
      rw [step_known hd] at hclean ⊢
      have hdraft := finish_clean hclean
      obtain ⟨hbefore, htraced⟩ := traced_runAll hout hdraft
      exact ⟨hbefore, d, rfl, fun hfresh => htraced.finish hout hfresh hclean⟩

end passes

/-! ## plans -/

/-- What comes down the chain has come out of the step before. -/
theorem on_input {draft : Draft} {s : Step} {c : Channel} {id : String}
    (h : (input draft s).on c = some id) :
    ∃ t f, s.source = some t ∧ draft.flow? t = some f ∧ f.on c = some id := by
  unfold input at h
  cases hf : s.source.bind draft.flow? with
  | none =>
      rw [hf] at h
      cases c <;> cases h
  | some f =>
      rw [hf] at h
      obtain ⟨t, hsource, hflow⟩ := Option.bind_eq_some_iff.1 hf
      exact ⟨t, f, hsource, hflow, h⟩

/-- An input that is a result is sampled from what came out of the step. -/
theorem on_of_takesResult {draft : Draft} {s : Step} {name : String} {c : Channel} {t : Nat}
    (h : s.TakesResult d name c t) {id : String} {fresh : Bool}
    (hs : x.source? draft s d (input draft s) name = some (id, fresh)) :
    ∃ f, draft.flow? t = some f ∧ f.on c = some id := by
  cases h with
  | chain hname hsource =>
      have hon : (input draft s).on c = some id := by
        obtain rfl := hname
        have hchannel : ∀ f : Flow, f.channel c.input = f.on c := by
          intro f
          cases c <;> rfl
        have hinput : c.input ≠ "feedback" ∧ isConventionInput c.input = true := by
          cases c <;> decide
        simp only [source?, hinput, if_false, if_true, hchannel, Option.map_eq_some_iff,
          Prod.mk.injEq] at hs
        obtain ⟨_, hon, rfl, -⟩ := hs
        exact hon
      obtain ⟨t', f, hsource', hflow, hon⟩ := on_input hon
      obtain rfl := Option.some.inj (hsource.symm.trans hsource')
      exact ⟨f, hflow, hon⟩
  | argument hname hsurface hvalue =>
      have hfeedback : name ≠ "feedback" := by
        rintro rfl
        exact absurd hname (by decide)
      simp only [source?, hfeedback, hname, hsurface, hvalue, if_false, if_true, Bool.false_eq_true,
        Option.map_eq_some_iff, Prod.mk.injEq] at hs
      obtain ⟨_, hbind, rfl, -⟩ := hs
      obtain ⟨f, hflow, himage⟩ := Option.bind_eq_some_iff.1 hbind
      exact ⟨f, hflow, himage⟩

end Expander

/-- The passes of a graph by the steps they belong to: what a pass writes keeps its content or
belongs to the step, and a pass that takes a result is bound to a texture that the maker of
the result has written before. -/
structure Feeds (p : Plan) (lookup : String → Option Descriptor) (steps : List Step) (g : Graph) :
    Prop where
  outputs : ∀ q ∈ g.passes, ∀ id ∈ q.outputs.values,
    isPersistent id = true ∨ ∃ n : Nat, q.step = n ∧ Private n id
  takes : ∀ s ∈ steps, ∃ d, lookup s.op = some d ∧ ∀ i q, d.passes[i]? = some q →
    ∃ (before : List Graph.Pass) (made : Graph.Pass) (after : List Graph.Pass),
      g.passes = before ++ made :: after ∧ made.id = passId s i ∧
      ∀ binding name c t, q.inputs.get? binding = some name → s.TakesResult d name c t →
        ∃ id m, made.inputs.get? binding = some id ∧ p.Maker lookup c t m ∧ m.Holds id c ∧
          Wrote before m id

/-- What holds of a draft after the given steps: what comes out of a step has been written by
the maker of it. -/
structure Draft.Fed (p : Plan) (lookup : String → Option Descriptor) (steps : List Step)
    (draft : Draft) :
    Prop where
  graph : Feeds p lookup steps draft.graph
  flows : ∀ t f c id, draft.flow? t = some f → f.on c = some id →
    ∃ m, p.Maker lookup c t m ∧ m.Holds id c ∧ Wrote draft.graph.passes m id

namespace Draft

open Expander

variable {p : Plan} {lookup : String → Option Descriptor} {overrides : List ShaderOverride}
    {steps : List Step}
  {draft : Draft} {s : Step}

/-- An image that comes down a chain lives within a frame. -/
theorem Fed.transient (h : draft.Fed p lookup steps) (hp : p.Linked) (hs : s ∈ p.steps)
    {id : String} (himage : (input draft s).image = some id) : isPersistent id = false := by
  obtain ⟨t, f, hsource, hflow, hon⟩ := on_input (c := .image) himage
  obtain ⟨m, hm, hholds, -⟩ := h.flows t f .image id hflow hon
  have hunwritten := hm.unwritten hp hs hsource
  have hprivate : Private m.temp id :=
    ⟨"out", by simpa [Step.Holds, hunwritten, String.append_assoc] using hholds⟩
  exact hprivate.transient

/-- One more step of the plan. -/
theorem Fed.step (h : draft.Fed p lookup steps) (hs : s ∈ p.steps) {draft' : Draft} {d : Descriptor}
    (hd : lookup s.op = some d) (hstep : Stepped ⟨p, lookup, overrides⟩ draft s d draft') :
    draft'.Fed p lookup (steps ++ [s]) := by
  obtain ⟨⟨own, hown, hplaced, houtputs⟩, f, hflow, hmakes⟩ := hstep
  have hwrote : ∀ {m id}, Wrote draft.graph.passes m id → Wrote draft'.graph.passes m id :=
    fun hm => hown ▸ hm.append own
  refine ⟨⟨fun q hq id hid => ?_, fun s' hs' => ?_⟩, fun t f' c id hf' hid => ?_⟩
  · rw [hown] at hq
    rcases List.mem_append.1 hq with hq | hq
    · exact h.graph.outputs q hq id hid
    · obtain ⟨hstep, hall⟩ := houtputs q hq
      exact (hall id hid).imp_right fun hprivate => ⟨s.temp, hstep, hprivate⟩
  · rcases List.mem_append.1 hs' with hs' | hs'
    · obtain ⟨d', hd', hall⟩ := h.graph.takes s' hs'
      refine ⟨d', hd', fun i q hq => ?_⟩
      obtain ⟨before, made, after, hpasses, hrest⟩ := hall i q hq
      exact ⟨before, made, after ++ own, by rw [hown, hpasses]; simp, hrest⟩
    · obtain rfl := List.mem_singleton.1 hs'
      refine ⟨d, hd, fun i q hq => ?_⟩
      obtain ⟨made, hmade, hq⟩ := hplaced i q hq
      obtain ⟨hlt, rfl⟩ := List.getElem?_eq_some_iff.1 hmade
      refine ⟨draft.graph.passes ++ own.take i, own[i], own.drop (i + 1), ?_, hq.id, ?_⟩
      · rw [hown, List.append_assoc, ← List.drop_eq_getElem_cons hlt, List.take_append_drop]
      · intro binding name c t hname htakes
        obtain ⟨id, fresh, hsource, hget⟩ := hq.inputs binding name hname
        obtain ⟨f', hf', hon⟩ := on_of_takesResult htakes hsource
        obtain ⟨m, hm, hholds, hwrote⟩ := h.flows t f' c id hf' hon
        exact ⟨id, m, hget, hm, hholds, hwrote.append _⟩
  · rw [hflow t] at hf'
    split at hf'
    · next ht =>
        obtain rfl := Option.some.inj hf'
        obtain rfl := ht
        rcases hmakes c id hid with ⟨hown, hm⟩ | ⟨hnot, hon⟩
        · exact ⟨s, .own hs hd hown, hm⟩
        · obtain ⟨t, f, hsource, hf, hon⟩ := on_input hon
          obtain ⟨m, hm, hholds, hwritten⟩ := h.flows t f c id hf hon
          exact ⟨m, .handed hs hd hnot hsource hm, hholds, hwrote hwritten⟩
    · obtain ⟨m, hm, hholds, hwritten⟩ := h.flows t f' c id hf' hid
      exact ⟨m, hm, hholds, hwrote hwritten⟩

end Draft

/-- In the graph of a plan that has no errors the passes that take results are bound to what
the makers of the results have written. -/
theorem feeds_expand {p : Plan} (hp : p.Linked) {lookup : String → Option Descriptor}
    {overrides : List ShaderOverride} (hclean : (p.expand lookup overrides).errors = []) :
    Feeds p lookup p.steps (p.expand lookup overrides) := by
  have hall : ∀ (rest done : List Step) (draft : Draft), done ++ rest = p.steps →
      (draft.graph.errors = [] → draft.Fed p lookup done) →
      (rest.foldl (Expander.step ⟨p, lookup, overrides⟩) draft).graph.errors = [] →
      (rest.foldl (Expander.step ⟨p, lookup, overrides⟩) draft).Fed p lookup p.steps := by
    intro rest
    induction rest with
    | nil =>
        intro done draft hsteps hfed hclean
        obtain rfl : done = p.steps := by simpa using hsteps
        exact hfed hclean
    | cons s rest ih =>
        intro done draft hsteps hfed
        have hs : s ∈ p.steps := by simp [← hsteps]
        refine ih (done ++ [s]) _ (by simpa using hsteps) fun hclean => ?_
        obtain ⟨hbefore, d, hd, hstepped⟩ := Expander.known_of_clean (hp.writable s hs) hclean
        have hdraft := hfed hbefore
        refine hdraft.step hs hd (hstepped fun o ho himage => ?_)
        have htransient := hdraft.transient hp hs himage
        simp [persistent_surfaceId (hp.writable s hs o ho)] at htransient
  exact (hall p.steps [] _ rfl (fun _ => ⟨⟨by simp, by simp⟩, by simp [Draft.flow?]⟩) hclean).graph

end Graph

end EffectChain
