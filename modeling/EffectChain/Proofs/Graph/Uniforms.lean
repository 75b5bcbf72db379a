import EffectChain.Proofs.Graph.Passes
import EffectChain.Proofs.Plan.Numbering

/-!
# EffectChain.Proofs.Graph.Uniforms

Where the values of uniforms come from.

A step decides a uniform when its effect has a parameter for it, its call comes to an argument
for the parameter, and the parameter does not leave the uniform to the steps before it.  The
passes of a step have the value that the nearest deciding step of the chain gives
(`uniform_decided`); what a pass declares itself is for the uniforms that no step decides.

* `Flow.Brings.addParams` — one step decides, or leaves what comes down the chain;
* `Expander.passed_step` — what a step hands on and what its passes get;
* `Draft.Follows.step` — a draft that follows the chains of the plan, step after step.
-/

namespace EffectChain

open EffectChain.Graph

/-! ## chains and what they decide -/

/-- The parameter feeds the uniform. -/
structure Descriptor.Feeds (d : Descriptor) (u : String) (p : Param) : Prop where
  mem : p ∈ d.params
  plain : p.isSurface = false
  name : p.uniformName = u

/-- The parameters of the effect feed different uniforms. -/
def Descriptor.Distinct (d : Descriptor) : Prop :=
  ((d.params.filter fun p => !p.isSurface).map Param.uniformName).Nodup

instance (d : Descriptor) : Decidable d.Distinct :=
  inferInstanceAs (Decidable (List.Nodup _))

/-- The steps before a step in its chain, the nearest first. -/
inductive Plan.Upstream (p : Plan) : Step → List Step → Prop
  | first {s : Step} (hsource : s.source = none) : Upstream p s []
  | next {s t : Step} {up : List Step} (hsource : s.source = some t.temp) (ht : t ∈ p.steps)
      (hup : Upstream p t up) :
      Upstream p s (t :: up)

section chains

variable (lookup : String → Option Descriptor)

/-- The effect of the step has the parameter for the uniform, and the call comes to an argument
for it. -/
def Step.Gives (s : Step) (u : String) (p : Param) (v : Value) : Prop :=
  ∃ d, lookup s.op = some d ∧ d.Feeds u p ∧ s.args.get? p.name = some v

/-- A step of the chain gives the uniform a value. -/
def Given (chain : List Step) (u : String) : Prop := ∃ t ∈ chain, ∃ p v, t.Gives lookup u p v

/-- A step of the chain writes the channel. -/
def Reached (chain : List Step) (c : Channel) : Prop :=
  ∃ t ∈ chain, ∃ d, lookup t.op = some d ∧ d.Writes d.passes.length c

/-- The step leaves the uniform of a parameter to the steps before it: the parameter inherits and
was not written in the call, a step before gives the uniform a value, and what the parameter
requires has come down the chain. -/
structure Step.Leaves (s : Step) (up : List Step) (u : String) (p : Param) : Prop where
  inherits : p.inherits = true
  unwritten : p.name ∉ s.explicit
  given : Given lookup up u
  channel : p.requires = "" ∨ ∃ c : Channel, p.requires = c.input ∧ Reached lookup up c

/-- The step decides the uniform. -/
def Step.Decides (s : Step) (up : List Step) (u : String) (v : Value) : Prop :=
  ∃ p, s.Gives lookup u p v ∧ ¬ s.Leaves lookup up u p

/-- The value of the uniform is the one that the nearest deciding step of the chain gives. -/
inductive Decided (u : String) : List Step → Value → Prop
  | own {s : Step} {up : List Step} {v : Value} (hdecides : s.Decides lookup up u v) : Decided u
      (s :: up) v
  | upstream {s : Step} {up : List Step} {v : Value} (hnot : ∀ w, ¬ s.Decides lookup up u w)
      (hup : Decided u up v) : Decided u (s :: up) v

end chains

/-- What a pass of a step has for the uniforms that no step decides: what its effect declares for
the pass, and nothing when the pass is a copy. -/
inductive Step.Defaults (s : Step) (d : Descriptor) (q : Graph.Pass) : Table Document → Prop
  | declared {i : Nat} {e : EffectChain.Pass} (hcopy : q.isCopy = false) (hid : q.id = passId s i)
      (he : d.passes[i]? = some e) : Defaults s d q e.uniforms
  | none (hcopy : q.isCopy = true) : Defaults s d q {}

variable {lookup : String → Option Descriptor} {u : String} {v : Value} {s : Step}
    {up chain : List Step}

@[simp] theorem decided_nil : ¬ Decided lookup u [] v := nofun

/-- A uniform is decided by the nearest step that decides it. -/
theorem decided_cons :
    Decided lookup u (s :: up) v ↔
      s.Decides lookup up u v ∨ (∀ w, ¬ s.Decides lookup up u w) ∧ Decided lookup u up v := by
  constructor
  · rintro (hdecides | ⟨hnot, hup⟩)
    · exact .inl hdecides
    · exact .inr ⟨hnot, hup⟩
  · rintro (hdecides | ⟨hnot, hup⟩)
    · exact .own hdecides
    · exact .upstream hnot hup

/-- Some step decides a uniform that some step gives a value. -/
theorem exists_decided_iff : (∃ v, Decided lookup u chain v) ↔ Given lookup chain u := by
  constructor
  · rintro ⟨v, h⟩
    induction h with
    | own hdecides =>
        obtain ⟨p, hgives, -⟩ := hdecides
        exact ⟨_, List.mem_cons_self, p, _, hgives⟩
    | upstream _ _ ih =>
        obtain ⟨t, ht, hgives⟩ := ih
        exact ⟨t, List.mem_cons_of_mem _ ht, hgives⟩
  · induction chain with
    | nil => rintro ⟨t, ht, -⟩; cases ht
    | cons s up ih =>
        rintro ⟨t, ht, p, v, hgives⟩
        by_cases hdecides : ∃ w, s.Decides lookup up u w
        · exact hdecides.imp fun w hw => .own hw
        -- a step that gives a value and does not decide leaves the uniform to a step before it
        have hup : Given lookup up u := by
          rcases List.mem_cons.1 ht with rfl | ht
          · by_contra hnone
            exact hdecides ⟨v, p, hgives, fun hleaves => hnone hleaves.given⟩
          · exact ⟨t, ht, p, v, hgives⟩
        exact (ih hup).imp fun w hw => .upstream (not_exists.1 hdecides) hw

/-! ## the parameters of a step -/

namespace Graph.Flow

variable {f : Flow} {d : Descriptor} {p : Param} {ps : List Param}

/-- The parameter leaves its uniform as it came down the chain. -/
def keeps (s : Step) (f : Flow) (p : Param) : Bool :=
  !s.explicit.contains p.name && p.inherits && f.uniforms.contains p.uniformName &&
    (p.requires = "" || (f.channel p.requires).isSome)

/-- A parameter changes no uniform but its own. -/
theorem get?_addParam_of_ne (s : Step) (f : Flow) (h : p.isSurface = false → p.uniformName ≠ u) :
    (addParam s f p).uniforms.get? u = f.uniforms.get? u := by
  unfold addParam
  split
  · rfl
  · next hplain =>
      split
      · rfl
      · split
        · have hne : u ≠ p.uniformName := fun heq => h (by simpa using hplain) heq.symm
          simp [hne]
        · rfl

/-- A parameter puts its argument in the flow, unless it keeps what is there. -/
theorem get?_addParam (s : Step) (f : Flow) (hplain : p.isSurface = false)
    (hname : p.uniformName = u) :
    (addParam s f p).uniforms.get? u =
      if keeps s f p then f.uniforms.get? u else (s.args.get? p.name).or (f.uniforms.get? u) := by
  obtain rfl := hname
  have hkeeps : (!s.explicit.contains p.name && p.inherits && f.uniforms.contains p.uniformName &&
      (p.requires = "" || (f.channel p.requires).isSome)) = keeps s f p := rfl
  unfold addParam
  rw [if_neg (by simp [hplain]), hkeeps]
  split
  · rfl
  · cases s.args.get? p.name with
    | none => rfl
    | some v => simp

/-- Parameters put nothing under other names. -/
theorem get?_foldl_addParam_of_ne (s : Step) (f : Flow)
    (h : ∀ p ∈ ps, p.isSurface = false → p.uniformName ≠ u) :
    (ps.foldl (addParam s) f).uniforms.get? u = f.uniforms.get? u := by
  induction ps generalizing f with
  | nil => rfl
  | cons p ps ih =>
      rw [List.foldl_cons, ih _ fun q hq => h q (List.mem_cons_of_mem _ hq),
        get?_addParam_of_ne s f (h p List.mem_cons_self)]

theorem on_foldl_addParam (s : Step) (f : Flow) (ps : List Param) (c : Channel) :
    (ps.foldl (addParam s) f).on c = f.on c :=
  on_addParams f { params := ps } s c

/-- Whether a uniform is kept depends on its value and on the channels. -/
theorem keeps_congr {g : Flow}
    (hget : g.uniforms.get? p.uniformName = f.uniforms.get? p.uniformName)
    (hon : ∀ c, g.on c = f.on c) : keeps s g p = keeps s f p := by
  have hchannel : g.channel p.requires = f.channel p.requires :=
    Option.ext fun id => by simp only [channel_eq_some, hon]
  rw [keeps, keeps, Table.contains, Table.contains, hget, hchannel]

/-- A uniform that a parameter of the effect feeds. -/
theorem get?_addParams (hd : d.Distinct) (s : Step) (f : Flow) (hfeeds : d.Feeds u p) :
    (f.addParams d s).uniforms.get? u =
      if keeps s f p then f.uniforms.get? u else (s.args.get? p.name).or (f.uniforms.get? u) := by
  obtain ⟨hmem, hplain, hname⟩ := hfeeds
  obtain ⟨before, after, hparams⟩ := List.append_of_mem hmem
  -- no parameter before or after this one feeds the uniform
  have hothers : ∀ q ∈ before ++ after, q.isSurface = false → q.uniformName ≠ u := by
    rw [Descriptor.Distinct, hparams, List.filter_append,
      List.filter_cons_of_pos (by simp [hplain]), List.map_append, List.map_cons, List.nodup_middle,
        List.nodup_cons, ← List.map_append, ← List.filter_append] at hd
    intro q hq hsurface heq
    refine hd.1 (List.mem_map.2 ⟨q, List.mem_filter.2 ⟨hq, by simp [hsurface]⟩,
      heq.trans hname.symm⟩)
  have hbefore := get?_foldl_addParam_of_ne s f fun q hq => hothers q (List.mem_append_left _ hq)
  rw [addParams, hparams, List.foldl_append, List.foldl_cons,
    get?_foldl_addParam_of_ne s _ fun q hq => hothers q (List.mem_append_right _ hq),
      get?_addParam s _ hplain hname,
    hbefore, keeps_congr (hname ▸ hbefore) (on_foldl_addParam s f before)]

/-- What a flow brings is what the steps of its chain have come to. -/
structure Brings (lookup : String → Option Descriptor) (chain : List Step) (f : Flow) : Prop where
  uniforms : ∀ u v, f.uniforms.get? u = some v ↔ Decided lookup u chain v
  channels : ∀ c, (f.on c).isSome = true ↔ Reached lookup chain c

theorem Brings.nil (lookup : String → Option Descriptor) : Brings lookup [] {} where
  uniforms u v := by simp
  channels c := by cases c <;> simp [on, Reached]

theorem Brings.contains_iff (h : f.Brings lookup up) :
    f.uniforms.contains u = true ↔ Given lookup up u := by
  rw [Table.contains_iff, ← exists_decided_iff]
  exact exists_congr (h.uniforms u)

/-- A parameter keeps its uniform where its step leaves it to the steps before. -/
theorem Brings.keeps_iff (h : f.Brings lookup up) (hname : p.uniformName = u) :
    keeps s f p = true ↔ s.Leaves lookup up u p := by
  have hchannel : (f.channel p.requires).isSome = true ↔ ∃ c : Channel, p.requires = c.input ∧
      Reached lookup up c := by
    simp only [Option.isSome_iff_exists, channel_eq_some, ← h.channels]
    exact ⟨fun ⟨id, c, hc, hid⟩ => ⟨c, hc, id, hid⟩, fun ⟨c, hc, id, hid⟩ => ⟨id, c, hc, hid⟩⟩
  rw [keeps, hname]
  simp only [Bool.and_eq_true, Bool.not_eq_true', List.contains_eq_mem, decide_eq_false_iff_not,
    Bool.or_eq_true, decide_eq_true_eq, h.contains_iff, hchannel]
  exact ⟨fun ⟨⟨⟨hunwritten, hinherits⟩, hgiven⟩, hrequires⟩ =>
    ⟨hinherits, hunwritten, hgiven, hrequires⟩,
    fun ⟨hinherits, hunwritten, hgiven, hrequires⟩ =>
      ⟨⟨⟨hunwritten, hinherits⟩, hgiven⟩, hrequires⟩⟩

/-- One step more decides a uniform, or leaves what comes down the chain. -/
theorem Brings.addParams (h : f.Brings lookup up) (hlookup : lookup s.op = some d) (hd : d.Distinct)
    (u : String) (v : Value) : (f.addParams d s).uniforms.get? u = some v ↔
    Decided lookup u (s :: up) v := by
  rw [decided_cons, ← h.uniforms]
  by_cases hfeeds : ∃ p, d.Feeds u p
  · obtain ⟨p, hp⟩ := hfeeds
    have hdecides : ∀ w, s.Decides lookup up u w ↔ s.args.get? p.name = some w ∧
        ¬ keeps s f p = true := by
      intro w
      rw [h.keeps_iff hp.name]
      constructor
      · rintro ⟨q, ⟨d', hd', hq, hw⟩, hleaves⟩
        obtain rfl := Option.some.inj (hlookup.symm.trans hd')
        obtain rfl : p = q := by
          refine List.inj_on_of_nodup_map hd ?_ ?_ (hp.name.trans hq.name.symm)
          · exact List.mem_filter.2 ⟨hp.mem, by simp [hp.plain]⟩
          · exact List.mem_filter.2 ⟨hq.mem, by simp [hq.plain]⟩
        exact ⟨hw, hleaves⟩
      · rintro ⟨hw, hleaves⟩
        exact ⟨p, ⟨d, hlookup, hp, hw⟩, hleaves⟩
    simp only [hdecides]
    rw [get?_addParams hd s f hp]
    by_cases hkeeps : keeps s f p = true
    · simp [hkeeps]
    · cases hget : s.args.get? p.name with
      | none => simp [hkeeps]
      | some w => simp [hkeeps]
  · -- no parameter of the effect feeds the uniform
    have hnot : ∀ w, ¬ s.Decides lookup up u w := by
      rintro w ⟨p, ⟨d', hd', hp, -⟩, -⟩
      obtain rfl := Option.some.inj (hlookup.symm.trans hd')
      exact hfeeds ⟨p, hp⟩
    rw [Flow.addParams, get?_foldl_addParam_of_ne s f fun p hp hplain hname =>
      hfeeds ⟨p, hp, hplain, hname⟩]
    simp [hnot]

end Graph.Flow

/-! ## the passes of a step -/

namespace Graph.Expander

variable {x : Expander} {d : Descriptor} {draft : Draft}

/-- Binding outputs is not about uniforms. -/
theorem Written.uniforms_bindOutput (step : Step) (d : Descriptor) (place : Nat) (last : Bool)
    (w : Written) (attachment name : String) :
    (bindOutput step d place last w attachment name).result.uniforms = w.result.uniforms := by
  rcases Written.bindOutput_cases step d place last w attachment name with ⟨-, heq⟩
    | ⟨w', heq, -, -, hresult, -⟩ <;>
    rw [heq]
  · rfl
  · rw [hresult]
    cases d.channel? name with
    | none => rfl
    | some c => cases c <;> rfl

/-- Binding outputs leaves the uniforms of the flow. -/
theorem Written.uniforms_bindAll (step : Step) (d : Descriptor) (place : Nat)
    (outputs : Table String) (w : Written) :
    (bindAll step d place outputs w).result.uniforms = w.result.uniforms :=
  List.foldlRecOn (motive := fun w' : Written => w'.result.uniforms = w.result.uniforms)
    outputs.entries
    (fun w e => bindOutput step d place (place + 1 = d.passes.length) w e.1 e.2)
        rfl fun w' ih e _ =>
    (uniforms_bindOutput step d place _ w' e.1 e.2).trans ih

/-- The passes of an effect change no uniforms. -/
theorem uniforms_runAll (x : Expander) (s : Step) (d : Descriptor) (draft : Draft) :
    (x.runAll s d draft).result.uniforms = ((input draft s).addParams d s).uniforms := by
  refine runAll_induct
    (P := fun _ w => w.result.uniforms = ((input draft s).addParams d s).uniforms) rfl
    fun w i e _ hw => ?_
  rw [pass_eq]
  exact (Written.uniforms_bindAll s d i e.outputs _).trans hw

/-- Without errors a channel is there when the effect writes it or it came down the chain. -/
theorem isSome_on_runAll (hclean : (x.runAll s d draft).draft.graph.errors = []) (c : Channel) :
    ((x.runAll s d draft).result.on c).isSome = true ↔
      d.Writes d.passes.length c ∨ ((input draft s).on c).isSome = true := by
  revert hclean
  refine runAll_induct (P := fun n w => w.draft.graph.errors = [] →
    ((w.result.on c).isSome = true ↔ d.Writes n c ∨ ((input draft s).on c).isSome = true))
    (fun _ => ?_) fun w i e he ih hclean => ?_
  · have hnone : ¬ d.Writes 0 c := by simp [Descriptor.Writes]
    have hon : Flow.on { (input draft s).addParams d s with image := (input draft s).image } c =
        (input draft s).on c := by
      have hadd := Flow.on_addParams (input draft s) d s c
      cases c with
      | image => rfl
      | volume => exact hadd
      | geometry => exact hadd
    rw [or_iff_right hnone, ← hon]
    rfl
  · have hbefore := ih (pass_clean hclean)
    rw [pass_eq] at hclean ⊢
    rw [d.writes_succ he]
    dsimp only at hclean ⊢
    have hbinds := Written.binds_all i e.outputs _ hclean
    generalize bindAll s d i e.outputs _ = w' at hbinds ⊢
    change (w'.result.on c).isSome = true ↔ _
    rcases hbinds.result c with ⟨⟨a, name⟩, hmem, hname, hon⟩ | ⟨hnone, hon⟩
    · have hvalue : name ∈ e.outputs.values := List.mem_map_of_mem hmem
      rw [hon]
      exact iff_of_true rfl (.inl (.inr ⟨name, hvalue, hname⟩))
    · have hnot : ¬ ∃ name ∈ e.outputs.values, d.channel? name = some c := by
        rintro ⟨name, hvalue, hname⟩
        obtain ⟨entry, hmem, rfl⟩ := List.mem_map.1 hvalue
        exact hnone entry hmem hname
      rw [hon, or_iff_left hnot]
      exact hbefore

/-- Bringing a result to its target changes no uniform, and no channel comes or goes. -/
theorem flow_finish {out : Flow} {direct : Bool}
    (hclean : (finish s out out.image direct draft).graph.errors = [])
    (hout : draft.flow? s.temp = some out) :
    ∃ f, (∀ t, (finish s out out.image direct draft).flow? t = if t = s.temp then some f
      else draft.flow? t) ∧
      f.uniforms = out.uniforms ∧ ∀ c, (f.on c).isSome = (out.on c).isSome := by
  have hsame : ∀ t, draft.flow? t = if t = s.temp then some out else draft.flow? t := by
    intro t
    split
    · next ht => rw [ht, hout]
    · rfl
  rcases finish_cases s out out.image direct draft with ⟨-, heq⟩
    | ⟨o, -, ⟨-, heq⟩ | ⟨-, heq⟩ | ⟨id, himage, heq⟩⟩ <;>
    rw [heq] at hclean ⊢
  · exact ⟨out, hsame, rfl, fun _ => rfl⟩
  · simp [Draft.addError] at hclean
  · exact ⟨out, hsame, rfl, fun _ => rfl⟩
  · refine ⟨{ out with image := some (surfaceId o) }, fun t => ?_, rfl, fun c => ?_⟩
    · rw [flow?_setFlow]
      rfl
    · cases c with
      | image => simp [Flow.on, himage]
      | volume => rfl
      | geometry => rfl

/-- One more value that a pass declares itself. -/
def constant (us : Table Value) (e : String × Document) : Table Value :=
  if us.contains e.1 then us
  else match Value.ofDocument? e.2 with
    | some v => us.insert e.1 v
    | none => us

/-- A constant puts nothing under other names. -/
theorem get?_constant_of_ne {e : String × Document} (hne : u ≠ e.1) (us : Table Value) :
    (constant us e).get? u = us.get? u := by
  unfold constant
  split
  · rfl
  · split
    · simp [hne]
    · rfl

/-- A constant fills its name, unless that is taken. -/
theorem get?_constant (us : Table Value) (u : String) (doc : Document) :
    (constant us (u, doc)).get? u = (us.get? u).or (Value.ofDocument? doc) := by
  unfold constant Table.contains
  cases hget : us.get? u with
  | some w => simp [hget]
  | none => cases Value.ofDocument? doc <;> simp [hget]

/-- Constants fill the names that are free. -/
theorem get?_foldl_constant {es : List (String × Document)}
    (hsorted : es.Pairwise fun a b => a.1 < b.1) (us : Table Value) (u : String) (v : Value) :
    (es.foldl constant us).get? u = some v ↔
      us.get? u = some v ∨ us.get? u = none ∧ ∃ doc, (u, doc) ∈ es ∧
      Value.ofDocument? doc = some v := by
  induction es generalizing us with
  | nil => simp
  | cons e es ih =>
      obtain ⟨k, doc⟩ := e
      obtain ⟨hlt, hsorted⟩ := List.pairwise_cons.1 hsorted
      rw [List.foldl_cons, ih hsorted]
      by_cases hk : u = k
      · subst hk
        -- the name does not come again
        have hnot : ∀ doc', (u, doc') ∉ es :=
          fun doc' hmem => String.lt_irrefl _ (hlt (u, doc') hmem)
        simp [hnot, get?_constant, Option.or_eq_some_iff]
      · rw [get?_constant_of_ne hk]
        simp [hk]

/-- The uniforms of a pass are those of its step and, where they are silent, its own. -/
theorem get?_made (x : Expander) (s : Step) (d : Descriptor) (uniforms : Table Value) (place : Nat)
    (e : EffectChain.Pass) (inputs outputs : Table String) (u : String) (v : Value) :
    (x.made s d uniforms place e inputs outputs).uniforms.get? u = some v ↔
      uniforms.get? u = some v ∨
        uniforms.get? u = none ∧ ∃ doc, e.uniforms.get? u = some doc ∧
        Value.ofDocument? doc = some v := by
  have huniforms : (x.made s d uniforms place e inputs outputs).uniforms = e.uniforms.entries.foldl
    constant uniforms := rfl
  simp only [huniforms, get?_foldl_constant e.uniforms.sorted, Table.mem_entries_iff]

/-- What a step of a known effect does without errors: what it hands on, and the uniforms of its
passes. -/
structure Passed (x : Expander) (draft : Draft) (s : Step) (d : Descriptor) (draft' : Draft) :
    Prop where
  flow : ∃ f, (∀ t, draft'.flow? t = if t = s.temp then some f else draft.flow? t) ∧
    f.uniforms = ((input draft s).addParams d s).uniforms ∧
    ∀ c, (f.on c).isSome = true ↔ d.Writes d.passes.length c ∨ ((input draft s).on c).isSome = true
  passes : ∃ own, draft'.graph.passes = draft.graph.passes ++ own ∧ ∀ q ∈ own, q.step = s.temp ∧
    ∃ defaults, s.Defaults d q defaults ∧ ∀ u v, q.uniforms.get? u = some v ↔
      ((input draft s).addParams d s).uniforms.get? u = some v ∨
        ((input draft s).addParams d s).uniforms.get? u = none ∧
          ∃ doc, defaults.get? u = some doc ∧ Value.ofDocument? doc = some v

/-- In a clean graph the declared effect of a step is passed. -/
theorem passed_known (hd : x.lookup s.op = some d) (hclean : (x.step draft s).graph.errors = []) :
    Passed x draft s d (x.step draft s) := by
  rw [step_known hd] at hclean ⊢
  have hran := ran_runAll x draft s d
  have huniforms := uniforms_runAll x s d draft
  have hset := finish_clean hclean
  have hrun : (x.runAll s d draft).draft.graph.errors = [] := hset
  have hchannels := isSome_on_runAll hrun
  generalize x.runAll s d draft = w at hclean hran huniforms hchannels
  obtain ⟨own, hown, -, hbecomes⟩ := hran.passes
  refine ⟨?_, ?_⟩
  · obtain ⟨f, hflow, hf, hon⟩ := flow_finish hclean (by rw [flow?_setFlow, if_pos rfl])
    refine ⟨f, fun t => ?_, hf.trans huniforms, fun c => by rw [hon, hchannels]⟩
    have hbefore : w.draft.flow? t = draft.flow? t := by rw [Draft.flow?, Draft.flow?, hran.flows]
    refine (hflow t).trans ?_
    rw [flow?_setFlow, hbefore]
    split <;> rfl
  · obtain ⟨copies, hpasses, hcopies⟩ :=
      finish_passes s w.result w.image w.direct (w.draft.setFlow s.temp w.result)
    refine ⟨own ++ copies, ?_, fun q hq => ?_⟩
    · rw [hpasses, ← List.append_assoc, ← hown]
      rfl
    · rcases List.mem_append.1 hq with hq | hq
      · obtain ⟨i, hi⟩ := List.getElem?_of_mem hq
        obtain ⟨e, he, hmade⟩ := hbecomes i q hi
        refine ⟨hmade.step, e.uniforms, .declared hmade.isCopy hmade.id he, fun u v => ?_⟩
        rw [hmade.made, get?_made]
      · rcases hcopies with rfl | ⟨id, o, -, rfl⟩
        · cases hq
        · obtain rfl := List.mem_singleton.1 hq
          refine ⟨rfl, {}, .none rfl, fun u v => ?_⟩
          change w.result.uniforms.get? u = some v ↔ _
          rw [huniforms]
          simp

/-- A step that brings no errors is one of a known effect, and there were none before it. -/
theorem passed_step (hclean : (x.step draft s).graph.errors = []) :
    draft.graph.errors = [] ∧ ∃ d, x.lookup s.op = some d ∧
    Passed x draft s d (x.step draft s) := by
  refine ⟨List.prefix_nil.1 (hclean ▸ errors_step x draft s), ?_⟩
  cases hd : x.lookup s.op with
  | none =>
      have herror := unknown_mem_errors hd draft
      simp [hclean] at herror
  | some d => exact ⟨d, rfl, passed_known hd hclean⟩

end Graph.Expander

/-! ## plans -/

namespace Graph.Draft

open Expander

variable {p : Plan} {d : Descriptor} {overrides : List ShaderOverride} {done : List Step}
    {draft : Draft}

/-- What comes out of each of the given steps brings what its chain has come to. -/
def Follows (p : Plan) (lookup : String → Option Descriptor) (done : List Step) (draft : Draft) :
    Prop :=
  ∀ s ∈ done, ∀ up, p.Upstream s up → ∃ f, draft.flow? s.temp = some f ∧ f.Brings lookup (s :: up)

/-- What comes down the chain to a step brings what the steps before it have come to. -/
theorem Follows.input (h : draft.Follows p lookup done)
    (hdone : ∀ t ∈ p.steps, s.source = some t.temp → t ∈ done) (hup : p.Upstream s up) :
    (Expander.input draft s).Brings lookup up := by
  cases hup with
  | first hsource =>
      have hinput : Expander.input draft s = {} := by rw [Expander.input, hsource]; rfl
      rw [hinput]
      exact .nil lookup
  | @next _ t up hsource ht hup =>
      obtain ⟨f, hflow, hf⟩ := h t (hdone t ht hsource) up hup
      have hinput : Expander.input draft s = f := by
        rw [Expander.input, hsource, Option.bind_some, hflow]; rfl
      rwa [hinput]

/-- One more step of the plan. -/
theorem Follows.step (h : draft.Follows p lookup done) (hlookup : lookup s.op = some d)
    (hd : d.Distinct) (hdone : ∀ t ∈ p.steps, s.source = some t.temp → t ∈ done)
    (hfresh : ∀ t ∈ done, t.temp ≠ s.temp) {draft' : Draft}
    (hpassed : Passed ⟨p, lookup, overrides⟩ draft s d draft') :
    draft'.Follows p lookup (done ++ [s]) := by
  obtain ⟨f, hflow, huniforms, hchannels⟩ := hpassed.flow
  intro t ht up hup
  rcases List.mem_append.1 ht with ht | ht
  · obtain ⟨g, hg, hbrings⟩ := h t ht up hup
    exact ⟨g, by rw [hflow, if_neg (hfresh t ht), hg], hbrings⟩
  · obtain rfl := List.mem_singleton.1 ht
    have hinput := h.input hdone hup
    refine ⟨f, by rw [hflow, if_pos rfl], ⟨fun u v => ?_, fun c => ?_⟩⟩
    · rw [huniforms, hinput.addParams hlookup hd]
    · rw [hchannels, hinput.channels]
      simp [Reached, hlookup]

end Graph.Draft

namespace Plan

variable {p : Plan} {overrides : List ShaderOverride} {done : List Step}

/-- The chain of every step goes back to its first step. -/
theorem exists_upstream (hnumbered : Numbered 0 p.steps) (hs : s ∈ p.steps) :
    ∃ up, p.Upstream s up := by
  induction hn : s.temp using Nat.strongRecOn generalizing s with
  | ind n ih =>
      cases hsource : s.source with
      | none => exact ⟨[], .first hsource⟩
      | some m =>
          have hlt := (hnumbered.sources s hs m hsource).2
          have hbound := (hnumbered.bounds hs).2
          obtain ⟨t, ht, rfl⟩ := hnumbered.exists_temp (Nat.zero_le m) (by omega)
          obtain ⟨up, hup⟩ := ih t.temp (hn ▸ hlt) ht rfl
          exact ⟨t :: up, .next hsource ht hup⟩

/-- The steps before a step are those with smaller numbers. -/
theorem numbered_before {base : Nat} {rest : List Step} (hnumbered : Numbered base p.steps)
    (hsteps : p.steps = done ++ s :: rest) :
    (∀ t ∈ done, t.temp ≠ s.temp) ∧ ∀ t ∈ p.steps, s.source = some t.temp → t ∈ done := by
  have hsorted : (p.steps.map (·.temp)).Pairwise (· < ·) :=
    hnumbered.temps ▸ List.pairwise_lt_range'
  rw [hsteps, List.map_append, List.map_cons, List.pairwise_append, List.pairwise_cons] at hsorted
  obtain ⟨-, ⟨hafter, -⟩, hbefore⟩ := hsorted
  refine ⟨fun t ht => Nat.ne_of_lt (hbefore _ (List.mem_map_of_mem ht) _ List.mem_cons_self),
    fun t ht hsource => ?_⟩
  have hlt := (hnumbered.sources s (by simp [hsteps]) _ hsource).2
  rw [hsteps, List.mem_append, List.mem_cons] at ht
  rcases ht with ht | rfl | ht
  · exact ht
  · omega
  · have hgt := hafter _ (List.mem_map_of_mem ht)
    omega

/-- A draft without errors follows the chains of the plan. -/
theorem follows_draftAfter (hnumbered : Numbered 0 p.steps)
    (hdistinct : ∀ op d, lookup op = some d → d.Distinct) (hdone : done <+: p.steps)
    (hclean : (p.draftAfter lookup overrides done).graph.errors = []) :
    (p.draftAfter lookup overrides done).Follows p lookup done := by
  revert hclean
  refine draftAfter_induct (P := fun done draft => draft.graph.errors = [] →
    draft.Follows p lookup done)
    (fun _ => by simp [Draft.Follows]) (fun done s draft hpre ih hclean => ?_) hdone
  obtain ⟨rest, hrest⟩ := hpre
  have hsteps : p.steps = done ++ s :: rest := by simpa using hrest.symm
  obtain ⟨hfresh, hearlier⟩ := numbered_before hnumbered hsteps
  obtain ⟨hbefore, d, hd, hpassed⟩ := Expander.passed_step hclean
  exact (ih hbefore).step hd (hdistinct _ d hd) hearlier hfresh hpassed

end Plan

/-- In the graph of a plan that has no errors, over effects whose parameters feed different
uniforms, the passes of a step have the value that the nearest deciding step of its chain gives;
where no step decides, they have what their effect declares for the pass, or nothing. -/
theorem uniform_decided {program : Program} {registry : Registry} {options : Options} {p : Plan}
    (hplan : program.plan registry options = .ok p)
    (hdistinct : ∀ op d, lookup op = some d → d.Distinct) {overrides : List ShaderOverride}
    (hclean : (p.expand lookup overrides).errors = []) (hs : s ∈ p.steps) :
    ∃ d up, lookup s.op = some d ∧ p.Upstream s up ∧ ∀ q ∈ (p.expand lookup overrides).passesOf s,
      ∃ defaults, s.Defaults d q defaults ∧ ∀ u v, q.uniforms.get? u = some v ↔
        Decided lookup u (s :: up) v ∨
          (∀ w, ¬ Decided lookup u (s :: up) w) ∧
            ∃ doc, defaults.get? u = some doc ∧ Value.ofDocument? doc = some v := by
  have hnumbered := Program.plan_numbered hplan
  have hnodup : (p.steps.map Step.temp).Nodup := hnumbered.temps ▸ List.nodup_range'
  obtain ⟨up, hup⟩ := Plan.exists_upstream hnumbered hs
  obtain ⟨done, hpre, hpasses, herrors, -⟩ := Plan.exists_draft hnodup lookup overrides hs
  obtain ⟨rest, hrest⟩ := hpre
  have hsteps : p.steps = done ++ s :: rest := by simpa using hrest.symm
  obtain ⟨hbefore, d, hd, hpassed⟩ := Expander.passed_step (List.prefix_nil.1 (hclean ▸ herrors))
  have hfollows :=
    Plan.follows_draftAfter hnumbered hdistinct (hsteps ▸ List.prefix_append _ _) hbefore
  have hinput := hfollows.input (Plan.numbered_before hnumbered hsteps).2 hup
  have hdecided := hinput.addParams hd (hdistinct _ d hd)
  obtain ⟨own, hown, hall⟩ := hpassed.passes
  obtain rfl : own = (p.expand lookup overrides).passesOf s :=
    List.append_cancel_left (hown.symm.trans hpasses)
  refine ⟨d, up, hd, hup, fun q hq => ?_⟩
  obtain ⟨-, defaults, hdefaults, hget⟩ := hall q hq
  refine ⟨defaults, hdefaults, fun u v => ?_⟩
  rw [hget, hdecided, Option.eq_none_iff_forall_ne_some]
  simp only [ne_eq, hdecided]

/-! ## a booth -/

/-- An effect of one pass with a parameter for the look of its image. -/
def lookEffect (name : String) (look : Param) (inputs : List (String × String)) : Descriptor where
  name
  starter := inputs.isEmpty
  params := [{ look with name := "look", type := "string" }]
  programs := .ofList [("main", {})]
  passes :=
    [{ program := "main", inputs := .ofList inputs, outputs := .ofList [("color", "outputTex")] }]

/-- A look that comes from earlier in the chain, where there is an image. -/
def paleLook : Param := { default := .text "pale", inherits := true, requires := "inputTex" }

/-- A lamp, a tint that inherits the look, and a veil whose look has a default that is no value. -/
def boothEffects : List Descriptor :=
  [lookEffect "lamp" { default := .text "plain" } [],
    lookEffect "tint" paleLook [("src", "inputTex")],
    lookEffect "veil" { default := .map [] } [("src", "inputTex")]]

def booth : Registry where
  ops := (Library.addOperations {} [] boothEffects).1

def boothCatalog (op : String) : Option Descriptor := boothEffects.find? (·.canonical = op)

/-- A warm lamp behind a tint and a veil. -/
def boothProgram : Program where
  search := ["booth"]
  statements :=
    [.run { calls := [{ name := "lamp", kwargs := [⟨"look", .string (.ofString "warm") {}, {}⟩] },
    { name := "tint" }, { name := "veil" }], out := some (.surface ⟨.output, 0⟩ {}) } {}]

def boothLamp : Step :=
  { op := "lamp", args := .ofList [("look", .text (.ofString "warm"))], explicit := ["look"] }

def boothTint : Step :=
  { op := "tint", args := .ofList [("look", .text (.ofString "pale"))], source := some 0,
    temp := 1 }

def boothVeil : Step := { op := "veil", source := some 1, temp := 2, out := some ⟨.output, 0⟩ }

def boothPlan : Plan where
  search := ["booth"]
  steps := [boothLamp, boothTint, boothVeil]

theorem booth_plan : boothProgram.plan booth {} = .ok boothPlan := rfl

theorem booth_distinct (op : String) (d : Descriptor) (h : boothCatalog op = some d) :
    d.Distinct := by
  have hall : ∀ d ∈ boothEffects, d.Distinct := by decide +kernel
  exact hall d (List.mem_of_find?_eq_some h)

theorem booth_clean : (boothPlan.expand boothCatalog).errors = [] := by decide +kernel

/-- The tint leaves the look to the lamp: its pass has what was written for the lamp. -/
theorem tint_keeps_look :
    boothProgram.plan booth {} = .ok boothPlan ∧ (∀ op d, boothCatalog op = some d → d.Distinct) ∧
      (boothPlan.expand boothCatalog).errors = [] ∧ boothTint ∈ boothPlan.steps ∧
      Decided boothCatalog "look" [boothTint, boothLamp] (.text (.ofString "warm")) ∧
      ∀ q ∈ (boothPlan.expand boothCatalog).passesOf boothTint,
        q.uniforms.get? "look" = some (.text (.ofString "warm")) := by
  have hmem : boothTint ∈ boothPlan.steps := by simp [boothPlan]
  obtain ⟨d, up, hd, hup, hall⟩ := uniform_decided booth_plan booth_distinct booth_clean hmem
  -- the chain of the tint has the lamp before it and nothing else
  obtain rfl : up = [boothLamp] := by
    cases hup with
    | first hsource => cases hsource
    | next hsource ht hup =>
        simp only [boothPlan, List.mem_cons, List.not_mem_nil, or_false] at ht
        rcases ht with rfl | rfl | rfl
        · cases hup with
          | first => rfl
          | next hsource' => cases hsource'
        · cases hsource
        · cases hsource
  have hlamp : boothLamp.Gives boothCatalog "look" { name := "look", type := "string",
                                                     default := .text "plain" }
      (.text (.ofString "warm")) := by
    refine ⟨_, rfl, ⟨List.mem_cons_self, by decide +kernel, by decide +kernel⟩, rfl⟩
  have hwrites : Reached boothCatalog [boothLamp] .image := by
    refine ⟨boothLamp, List.mem_cons_self, _, rfl, _, List.mem_cons_self, "outputTex", ?_, rfl⟩
    decide +kernel
  have htint : boothCatalog boothTint.op =
    some (lookEffect "tint" paleLook [("src", "inputTex")]) := rfl
  have hdecided : Decided boothCatalog "look" [boothTint, boothLamp]
      (.text (.ofString "warm")) := by
    refine .upstream ?_ (.own ⟨_, hlamp, fun hleaves => absurd hleaves.inherits (by decide)⟩)
    rintro w ⟨p, ⟨d', hd', hp, -⟩, hnot⟩
    obtain rfl := Option.some.inj (htint.symm.trans hd')
    obtain rfl := List.mem_singleton.1 hp.mem
    exact hnot ⟨rfl, by simp [boothTint], ⟨boothLamp, List.mem_cons_self, _, _, hlamp⟩,
      .inr ⟨.image, rfl, hwrites⟩⟩
  refine ⟨booth_plan, booth_distinct, booth_clean, hmem, hdecided, fun q hq => ?_⟩
  obtain ⟨defaults, -, hget⟩ := hall q hq
  exact (hget "look" _).2 (.inl hdecided)

/-- The veil does not inherit the look and has no value for it, and its pass has the look of the
lamp all the same. -/
theorem veil_shows_lamp :
    boothProgram.plan booth {} = .ok boothPlan ∧ (∀ op d, boothCatalog op = some d → d.Distinct) ∧
      (boothPlan.expand boothCatalog).errors = [] ∧ boothVeil ∈ boothPlan.steps ∧
      (∃ d p, boothCatalog boothVeil.op = some d ∧ d.Feeds "look" p ∧ p.inherits = false ∧
        boothVeil.args.get? p.name = none ∧ ∀ e ∈ d.passes, e.uniforms.get? "look" = none) ∧
      ((boothPlan.expand boothCatalog).passesOf boothVeil).map
        (fun q => (q.id, q.uniforms.get? "look")) =
        [("node_2_pass_0", some (.text (.ofString "warm")))] := by
  refine ⟨booth_plan, booth_distinct, booth_clean, by simp [boothPlan],
    ⟨_, _, rfl, ⟨List.mem_cons_self, ?_, ?_⟩, rfl, rfl, ?_⟩, rfl⟩
  · decide +kernel
  · decide +kernel
  · simp [lookEffect]

end EffectChain
