import EffectChain.Proofs.Graph.Bindings

/-!
# EffectChain.Proofs.Graph.Roles

What the textures of a graph are for, and when two of them have one name.

A texture holds what a step hands on, or is declared by the effect of a step for itself, or is
shared by all effects that declare it, or it is a surface (`Role`).  Every texture of the graph
of a plan has a role of the plan.  Different roles have different names exactly where the names
that effects declare keep apart (`Plan.NamesApart`): none is that of a result, none is both of an
image and of a volume, and shared names differ in more than the case of their first letter and
are not those of outputs (`roles_apart_iff`).
-/

namespace EffectChain

open EffectChain.Graph

/-! ## roles -/

/-- The name that effects declare a shared texture by. -/
def sharedName (c : Char) (rest : List Char) : String := "global" ++ String.ofList (c :: rest)

/-- What a texture is for. -/
inductive Role where
  /-- What a step hands on in a channel. -/
  | result (temp : Nat) (c : Channel)
  /-- What the effect of a step declares for the step alone. -/
  | own (temp : Nat) (volume : Bool) (name : String)
  /-- What all effects share that declare it. -/
  | shared (name : String)
  | surface (o : Surface)
  deriving DecidableEq

/-- The texture for a role. -/
def Role.id : Role → String
  | .result temp .image => nodeId temp ++ "_out"
  | .result temp .volume => nodeId temp ++ "_out3d"
  | .result temp .geometry => nodeId temp ++ "_geo"
  | .own temp _ name => textureId (nodeId temp) name
  | .shared name => textureId "" name
  | .surface o => surfaceId o

namespace Plan

variable {p : Plan} {lookup : String → Option Descriptor}

/-- The effect of the step with the given number declares a texture. -/
def Declares (p : Plan) (lookup : String → Option Descriptor) (temp : Nat) (volume : Bool)
    (name : String) : Prop :=
  ∃ s ∈ p.steps, s.temp = temp ∧ ∃ d, lookup s.op = some d ∧
    (if volume then d.volumes.contains name else d.textures.contains name) = true

/-- The plan reads or writes the surface, or shows it. -/
def Mentions (p : Plan) (o : Surface) : Prop :=
  o = p.renderSurface ∨ ∃ s ∈ p.steps, s.out = some o ∨ ∃ name, s.args.get? name = some (.ref o)

/-- The roles of a plan over a catalog: the results of its steps, the textures that the effects
of its steps declare, and the surfaces that the language has or the plan speaks of. -/
def HasRole (p : Plan) (lookup : String → Option Descriptor) : Role → Prop
  | .result temp _ => ∃ s ∈ p.steps, s.temp = temp
  | .own temp volume name =>
      (∀ c rest, name ≠ sharedName c rest) ∧ p.Declares lookup temp volume name
  | .shared name =>
      (∃ c rest, name = sharedName c rest) ∧ ∃ temp volume, p.Declares lookup temp volume name
  | .surface o => o.kind ≠ .temp ∧ (Surface.ofName? o.name = some o ∨ p.Mentions o)

/-- The names that effects declare keep apart. -/
structure NamesApart (p : Plan) (lookup : String → Option Descriptor) : Prop where
  /-- No texture of a step has the name of a result. -/
  results : ∀ temp volume name, p.HasRole lookup (.own temp volume name) →
    name ∉ ["out", "out3d", "geo"]
  /-- No texture of a step is an image and a volume. -/
  kinds : ∀ temp name, p.HasRole lookup (.own temp false name) →
    ¬ p.HasRole lookup (.own temp true name)
  /-- Shared textures differ in more than the case of a letter. -/
  letters : ∀ c c' rest, p.HasRole lookup (.shared (sharedName c rest)) →
    p.HasRole lookup (.shared (sharedName c' rest)) → Text.lowerChar c = Text.lowerChar c' → c = c'
  /-- No shared texture has the name of an output. -/
  outputs : ∀ c rest o, p.HasRole lookup (.shared (sharedName c rest)) →
    p.HasRole lookup (.surface o) →
    o.kind = .output → String.ofList (Text.lowerChar c :: rest) ≠ o.name

end Plan

/-! ## names in two parts -/

/-- What a texture belongs to. -/
inductive TextureScope where
  | node (temp : Nat)
  | global
  | feedback
  | source
  deriving DecidableEq

namespace TextureScope

def text : TextureScope → String
  | .node temp => nodeId temp
  | .global => "global"
  | .feedback => "feedback"
  | .source => "source"

/-- The name of a texture tells what it belongs to, and its name there. -/
theorem inj {a b : TextureScope} {x y : String} (h : a.text ++ "_" ++ x = b.text ++ "_" ++ y) :
    a = b ∧ x = y := by
  have hlist := congrArg String.toList h
  cases a <;> cases b <;>
    simp only [text, nodeId, String.toList_append, List.append_assoc] at hlist
  case node.node m n =>
    obtain ⟨rfl, hrest⟩ := toString_append_inj (by simp) (by simp) (List.append_cancel_left hlist)
    exact ⟨rfl, String.toList_injective (List.append_cancel_left hrest)⟩
  case global.global =>
    exact ⟨rfl, String.toList_injective (List.append_cancel_left (List.append_cancel_left hlist))⟩
  case feedback.feedback =>
    exact ⟨rfl, String.toList_injective (List.append_cancel_left (List.append_cancel_left hlist))⟩
  case source.source =>
    exact ⟨rfl, String.toList_injective (List.append_cancel_left (List.append_cancel_left hlist))⟩
  all_goals simp at hlist

end TextureScope

/-- A shared texture is named after the letters behind `global`. -/
theorem textureId_shared (node : String) (c : Char) (rest : List Char) :
    textureId node (sharedName c rest) = "global_" ++ String.ofList (lowered c rest) := by
  have hlist : (sharedName c rest).toList = 'g' :: 'l' :: 'o' :: 'b' :: 'a' :: 'l' :: c ::
      rest := by
    simp [sharedName]
  rw [textureId, hlist]
  rfl

/-- Shared names that begin with letters outside ASCII have one texture when their bytes agree
from the second one on. -/
theorem textureId_shared_inj {node : String} {c c' : Char} {rest rest' : List Char}
    (hc : ¬ c.toNat < 128) (hc' : ¬ c'.toNat < 128) :
    textureId node (sharedName c rest) = textureId node (sharedName c' rest') ↔
      (Utf8.encode (c :: rest)).tail = (Utf8.encode (c' :: rest')).tail := by
  rw [textureId_shared, textureId_shared, String.append_right_inj, String.ofList_inj, lowered,
    lowered, if_neg hc, if_neg hc', List.cons.injEq, List.map_inj_right fun _ _ h =>
      Utf8.byteChar_injective h]
  exact and_iff_right rfl

/-- A texture that is not shared is named after its node. -/
theorem textureId_own {node name : String} (h : ∀ c rest, name ≠ sharedName c rest) :
    textureId node name = node ++ "_" ++ name := by
  unfold textureId
  split
  · next c rest hlist =>
        exact absurd (String.toList_injective (by rw [hlist]; simp [sharedName])) (h c rest)
  · rfl

namespace Role

variable {p : Plan} {lookup : String → Option Descriptor} {r r' : Role}

/-- What the texture for a role belongs to. -/
def owner : Role → TextureScope
  | .result temp _ => .node temp
  | .own temp _ _ => .node temp
  | .shared _ => .global
  | .surface o => match o.kind with
    | .output => .global
    | .feedback => .feedback
    | .source => .source
    | .temp => .node o.index

/-- The name of the texture for a role there. -/
def part : Role → String
  | .result _ .image => "out"
  | .result _ .volume => "out3d"
  | .result _ .geometry => "geo"
  | .own _ _ name => name
  | .shared name => match name.toList.drop 6 with
    | c :: rest => String.ofList (lowered c rest)
    | [] => ""
  | .surface o => o.name

theorem part_shared {c : Char} (hc : c.toNat < 128) (rest : List Char) :
    (shared (sharedName c rest)).part = String.ofList (Text.lowerChar c :: rest) := by
  have hlist : (sharedName c rest).toList.drop 6 = c :: rest := by simp [sharedName]
  simp [part, hlist, lowered, hc]

/-- The texture for a role of a plan is named by what it belongs to and its name there. -/
theorem id_eq (h : p.HasRole lookup r) : r.id = r.owner.text ++ "_" ++ r.part := by
  cases r with
  | result temp c =>
      rw [String.append_assoc]
      cases c <;> rfl
  | own temp volume name => exact textureId_own h.1
  | shared name =>
      obtain ⟨⟨c, rest, rfl⟩, -⟩ := h
      have hlist : (sharedName c rest).toList.drop 6 = c :: rest := by simp [sharedName]
      rw [id, textureId_shared, part, hlist]
      rfl
  | surface o =>
      obtain ⟨kind, index⟩ := o
      cases kind with
      | output => rfl
      | feedback => rfl
      | source => rfl
      | temp => exact absurd rfl h.1

theorem owner_surface {o : Surface} (h : o.kind ≠ .temp) (temp : Nat) :
    (surface o).owner ≠ .node temp := by
  obtain ⟨kind, index⟩ := o
  cases kind <;> simp_all [owner]

/-- Where names keep apart, a role is told by the name of its texture. -/
theorem eq_of_id (hapart : p.NamesApart lookup)
    (hascii : ∀ c rest, p.HasRole lookup (.shared (sharedName c rest)) → c.toNat < 128)
    (h : p.HasRole lookup r) (h' : p.HasRole lookup r') (hid : r.id = r'.id) : r = r' := by
  have hresult : ∀ {temp c t v name}, p.HasRole lookup (.own t v name) →
      (result temp c).part ≠ name := by
    rintro temp c t v name hown rfl
    exact hapart.results t v _ hown (by cases c <;> simp [part])
  have hsurface : ∀ {name o}, p.HasRole lookup (.shared name) → p.HasRole lookup (.surface o) →
      (surface o).owner = .global → (shared name).part ≠ o.name := by
    intro name o hshared ho howner hpart
    obtain ⟨c, rest, rfl⟩ := hshared.1
    have hkind : o.kind = .output := by
      obtain ⟨kind, index⟩ := o
      cases kind <;> simp [owner] at howner ⊢
    rw [part_shared (hascii c rest hshared)] at hpart
    exact hapart.outputs c rest o hshared ho hkind hpart
  rw [id_eq h, id_eq h'] at hid
  obtain ⟨howner, hpart⟩ := TextureScope.inj hid
  cases r with
  | result temp c =>
      cases r' with
      | result temp' c' =>
          obtain rfl := TextureScope.node.inj howner
          cases c <;> cases c' <;> first | rfl | simp [part] at hpart
      | own temp' volume name => exact absurd hpart (hresult h')
      | shared name => simp [owner] at howner
      | surface o => exact absurd howner.symm (owner_surface h'.1 temp)
  | own temp volume name =>
      cases r' with
      | result temp' c' => exact absurd hpart.symm (hresult h)
      | own temp' volume' name' =>
          obtain rfl := TextureScope.node.inj howner
          obtain rfl : name = name' := hpart
          cases volume <;> cases volume'
          · rfl
          · exact absurd h' (hapart.kinds temp name h)
          · exact absurd h (hapart.kinds temp name h')
          · rfl
      | shared name' => simp [owner] at howner
      | surface o => exact absurd howner.symm (owner_surface h'.1 temp)
  | shared name =>
      cases r' with
      | result temp' c' => simp [owner] at howner
      | own temp' volume name' => simp [owner] at howner
      | shared name' =>
          obtain ⟨c, rest, rfl⟩ := h.1
          obtain ⟨c', rest', rfl⟩ := h'.1
          rw [part_shared (hascii c rest h), part_shared (hascii c' rest' h')] at hpart
          obtain ⟨hletter, rfl⟩ := List.cons.inj (String.ofList_injective hpart)
          rw [hapart.letters c c' rest h h' hletter]
      | surface o => exact absurd hpart (hsurface h h' howner.symm)
  | surface o =>
      cases r' with
      | result temp' c' => exact absurd howner (owner_surface h.1 temp')
      | own temp' volume name => exact absurd howner (owner_surface h.1 temp')
      | shared name => exact absurd hpart.symm (hsurface h' h howner)
      | surface o' => rw [Surface.name_injective hpart]

end Role

/-! ## plans -/

namespace Plan

open Graph.Expander

variable {p : Plan} {lookup : String → Option Descriptor}

/-- Where the names of textures tell their roles, the names that effects declare keep apart. -/
theorem namesApart_of_eq
    (hascii : ∀ c rest, p.HasRole lookup (.shared (sharedName c rest)) → c.toNat < 128)
    (h : ∀ r r', p.HasRole lookup r → p.HasRole lookup r' → r.id = r'.id → r = r') :
    p.NamesApart lookup where
  results temp volume name hown hname := by
    obtain ⟨s, hs, htemp, -⟩ := hown.2
    have hid : ∀ c, (Role.result temp c).part = name → False := by
      intro c hpart
      have hresult : p.HasRole lookup (.result temp c) := ⟨s, hs, htemp⟩
      have heq := h _ _ hresult hown (by rw [Role.id_eq hresult, Role.id_eq hown, hpart]; rfl)
      cases heq
    simp only [List.mem_cons, List.not_mem_nil, or_false] at hname
    rcases hname with rfl | rfl | rfl
    · exact hid .image rfl
    · exact hid .volume rfl
    · exact hid .geometry rfl
  kinds temp name himage hvolume := by
    cases h _ _ himage hvolume rfl
  letters c c' rest hc hc' hletter := by
    have heq := h _ _ hc hc' (by
      rw [Role.id_eq hc, Role.id_eq hc', Role.part_shared (hascii c rest hc),
        Role.part_shared (hascii c' rest hc'), hletter]
      rfl)
    have hlist := congrArg String.toList (Role.shared.inj heq)
    simp only [sharedName, String.toList_append, String.toList_ofList] at hlist
    exact (List.cons.inj (List.append_cancel_left hlist)).1
  outputs c rest o hshared ho hkind hname := by
    have howner : (Role.surface o).owner = .global := by simp [Role.owner, hkind]
    cases h _ _ hshared ho (by
      rw [Role.id_eq hshared, Role.id_eq ho, howner, Role.part_shared (hascii c rest hshared),
        hname]
      rfl)

/-- A texture that the effect of a step declares has a role. -/
theorem exists_role_declared {s : Step} (hs : s ∈ p.steps) {d : Descriptor}
    (hd : lookup s.op = some d) {name : String} (hname : (d.texture? name).isSome = true) :
    ∃ r, p.HasRole lookup r ∧ r.id = textureId (nodeId s.temp) name := by
  have hdeclares : ∃ volume, p.Declares lookup s.temp volume name := by
    obtain ⟨spec, hspec⟩ := Option.isSome_iff_exists.1 hname
    rcases Option.or_eq_some_iff.1 hspec with hspec | ⟨-, hspec⟩
    · exact ⟨false, s, hs, rfl, d, hd, by simp [Table.contains_iff.2 ⟨_, hspec⟩]⟩
    · exact ⟨true, s, hs, rfl, d, hd, by simp [Table.contains_iff.2 ⟨_, hspec⟩]⟩
  obtain ⟨volume, hdeclares⟩ := hdeclares
  by_cases hshared : ∃ c rest, name = sharedName c rest
  · refine ⟨.shared name, ⟨hshared, s.temp, volume, hdeclares⟩, ?_⟩
    obtain ⟨c, rest, rfl⟩ := hshared
    rw [Role.id, textureId_shared, textureId_shared]
  · have hown : ∀ c rest, name ≠ sharedName c rest := fun c rest heq => hshared ⟨c, rest, heq⟩
    exact ⟨.own s.temp volume name, ⟨hown, hdeclares⟩, rfl⟩

/-- What a step can bind has a role. -/
theorem admits_roles (hreal : ∀ s ∈ p.steps, ∀ o, s.out = some o → o.kind ≠ .temp) {s : Step}
    (hs : s ∈ p.steps) {d : Descriptor} (hd : lookup s.op = some d) :
    s.Admits p d fun id => ∃ r, p.HasRole lookup r ∧ r.id = id where
  outputs last name hyields := by
    unfold outputId
    split
    · split
      · next o ho =>
          exact ⟨.surface o, ⟨hreal s hs o ho, .inr (.inr ⟨s, hs, .inl ho⟩)⟩, rfl⟩
      · exact ⟨.result s.temp .image, ⟨s, hs, rfl⟩, rfl⟩
    · exact ⟨.result s.temp .volume, ⟨s, hs, rfl⟩, rfl⟩
    · exact ⟨.result s.temp .geometry, ⟨s, hs, rfl⟩, rfl⟩
    · next himage hvolume hgeometry =>
        exact exists_role_declared hs hd (hyields.declared himage hvolume hgeometry)
  declared name hname := exists_role_declared hs hd hname
  feedback o ho := by
    obtain ⟨s', hs', ho⟩ := Option.bind_eq_some_iff.1 ho
    have hs' := List.mem_of_find?_eq_some hs'
    exact ⟨.surface o, ⟨hreal s' hs' o ho, .inr (.inr ⟨s', hs', .inl ho⟩)⟩, rfl⟩
  arguments name o hvalue hkind :=
    ⟨.surface o, ⟨hkind, .inr (.inr ⟨s, hs, .inr ⟨name, hvalue⟩⟩)⟩, rfl⟩

/-- The textures of the graph of a plan, and what its passes are bound to, are textures for
roles of the plan; and different roles have different textures exactly where the names that
effects declare keep apart.  The shared names begin with a letter of ASCII after `global`. -/
theorem roles_apart_iff (p : Plan) (lookup : String → Option Descriptor)
    (overrides : List ShaderOverride)
    (hreal : ∀ o, (o = p.renderSurface ∨ ∃ s ∈ p.steps, s.out = some o) → o.kind ≠ .temp)
    (hascii : ∀ c rest, p.HasRole lookup (.shared (sharedName c rest)) → c.toNat < 128) :
    (∀ id, (p.expand lookup overrides).textures.contains id = true → ∃ r, p.HasRole lookup r ∧
      r.id = id) ∧
      (∀ q ∈ (p.expand lookup overrides).passes, ∀ id ∈ q.inputs.values ++ q.outputs.values,
        ∃ r, p.HasRole lookup r ∧ r.id = id) ∧
      ((∀ r r', p.HasRole lookup r → p.HasRole lookup r' → r.id = r'.id → r = r') ↔
        p.NamesApart lookup) := by
  have hout : ∀ s ∈ p.steps, ∀ o, s.out = some o → o.kind ≠ .temp :=
    fun s hs o ho => hreal o (.inr ⟨s, hs, ho⟩)
  obtain ⟨htextures, hpasses⟩ := within_expand (I := fun id => ∃ r, p.HasRole lookup r ∧ r.id = id)
    ⟨.surface p.renderSurface, ⟨hreal _ (.inl rfl), .inr (.inl rfl)⟩, rfl⟩
    (fun s hs => ⟨fun d hd => admits_roles hout hs hd, fun o ho =>
      ⟨.surface o, ⟨hout s hs o ho, .inr (.inr ⟨s, hs, .inl ho⟩)⟩, rfl⟩⟩) overrides
  exact ⟨htextures, hpasses, namesApart_of_eq hascii, fun hapart r r' h h' =>
    Role.eq_of_id hapart hascii h h'⟩

end Plan

/-! ## a texture with the name of a result -/

/-- An effect that draws to a small texture of its own, and then makes an image of it. -/
def smearEffect : Descriptor where
  name := "smear"
  programs := .ofList [("main", {})]
  passes := [
    { program := "main", outputs := .ofList [("color", "out")] },
    { program := "main", inputs := .ofList [("src", "out")],
      outputs := .ofList [("color", "outputTex")] }]
  textures := .ofList [("out", { width := 16, height := 16 })]

/-- Two steps of the effect; the second one is written to an output. -/
def smearPlan : Plan where
  steps := [{ op := "smear", temp := 0 },
    { op := "smear", source := some 0, temp := 1, out := some ⟨.output, 0⟩ }]

def smearCatalog (op : String) : Option Descriptor :=
  if op = "smear" then some smearEffect else none

theorem smear_declares {temp : Nat} {volume : Bool} {name : String}
    (h : smearPlan.Declares smearCatalog temp volume name) : name = "out" := by
  obtain ⟨s, -, -, d, hd, hname⟩ := h
  unfold smearCatalog at hd
  split at hd
  · obtain rfl := Option.some.inj hd
    cases volume with
    | false => simpa [smearEffect, Table.contains_ofList] using hname
    | true => simp [smearEffect, Table.contains] at hname
  · cases hd

/-- The small texture of the first step is where its image is: the pass that makes the image
samples what it writes. -/
theorem smear_out_is_result :
    (∀ o, (o = smearPlan.renderSurface ∨ ∃ s ∈ smearPlan.steps, s.out = some o) → o.kind ≠ .temp) ∧
      (∀ c rest, smearPlan.HasRole smearCatalog (.shared (sharedName c rest)) → c.toNat < 128) ∧
      smearPlan.HasRole smearCatalog (.own 0 false "out") ∧
      smearPlan.HasRole smearCatalog (.result 0 .image) ∧
      (Role.own 0 false "out").id = (Role.result 0 .image).id ∧
      ¬ smearPlan.NamesApart smearCatalog ∧
      (smearPlan.expand smearCatalog).passes.map
        (fun q => (q.id, q.inputs.values, q.outputs.values)) =
        [("node_0_pass_0", [], ["node_0_out"]), ("node_0_pass_1", ["node_0_out"], ["node_0_out"]),
          ("node_1_pass_0", [], ["node_1_out"]),
          ("node_1_pass_1", ["node_1_out"], ["global_o0"])] := by
  have hreal : ∀ o, (o = smearPlan.renderSurface ∨ ∃ s ∈ smearPlan.steps, s.out = some o) →
      o.kind ≠ .temp := by
    rintro o (rfl | ⟨s, hs, ho⟩)
    · decide
    · simp only [smearPlan, List.mem_cons, List.not_mem_nil, or_false] at hs
      rcases hs with rfl | rfl
      · cases ho
      · exact Option.some.inj ho ▸ by decide
  have hshared : ∀ c rest, sharedName c rest ≠ "out" := by
    intro c rest h
    have hlist := congrArg String.toList h
    simp [sharedName] at hlist
  have hascii : ∀ c rest, smearPlan.HasRole smearCatalog (.shared (sharedName c rest)) →
      c.toNat < 128 := by
    rintro c rest ⟨-, temp, volume, hdeclares⟩
    exact absurd (smear_declares hdeclares) (hshared c rest)
  have hown : smearPlan.HasRole smearCatalog (.own 0 false "out") :=
    ⟨fun c rest h => hshared c rest h.symm, _, List.mem_cons_self, rfl, smearEffect, rfl, rfl⟩
  have hresult : smearPlan.HasRole smearCatalog (.result 0 .image) := ⟨_, List.mem_cons_self, rfl⟩
  have hid : (Role.own 0 false "out").id = (Role.result 0 .image).id := by decide +kernel
  refine ⟨hreal, hascii, hown, hresult, hid, fun hapart => ?_, by decide +kernel⟩
  have hsame := (Plan.roles_apart_iff smearPlan smearCatalog [] hreal hascii).2.2.2 hapart
    _ _ hown hresult hid
  cases hsame

end EffectChain
