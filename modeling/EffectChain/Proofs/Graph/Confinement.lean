import EffectChain.Proofs.Graph.Programs
import EffectChain.Proofs.Graph.Reshaded

/-!
# EffectChain.Proofs.Graph.Confinement

Whether a shader that replaces a program of a step stays in that step.

It does when the graph has the shader under its identifier, and has every other program that it
has without the shader (`ShaderOverride.Confined`).  The identifier is put together of the name
of the program and the number of the step, but an effect may have a program whose own name ends
in a number, such as `main@0`.  Then two programs have one identifier, and the later step decides
for both.  `ShaderOverride.confined_iff` says when all is well: the identifier is free or stands
for the same shader (`ShaderOverride.Clear`).  It is so whenever the names of programs have
neither `/` nor `@` in them (`ShaderOverride.clear_of_plain`).
-/

namespace EffectChain

open EffectChain.Graph

/-! ## lists of entries, some of which are changed -/

section lookup

variable {α β : Type} {f f' : α → String × β} {own : α → Bool}

/-- A mapped entry is found when one is mapped to its id. -/
theorem isSome_lookup_map {as : List α} {id : String} :
    ((as.map f).lookup id).isSome = true ↔ ∃ a ∈ as, (f a).1 = id := by
  rw [List.lookup_isSome_iff]
  simp only [List.mem_map, exists_exists_and_eq_and, beq_iff_eq]
  exact exists_congr fun a => and_congr_right fun _ => eq_comm

/-- Where no entry is taken away, the view is as before, or an entry has come there. -/
theorem lookup_map_changed {as : List α} (hsame : ∀ a ∈ as, own a = false → f' a = f a)
    {id : String} (hgone : ∀ a ∈ as, own a = true → (f a).1 ≠ id) :
    (as.map f').lookup id = (as.map f).lookup id ∨
      ∃ a ∈ as, own a = true ∧ (f' a).1 = id ∧ (as.map f').lookup id = some (f' a).2 := by
  induction as with
  | nil => exact .inl rfl
  | cons a as ih =>
      have ih := ih (fun b hb => hsame b (List.mem_cons_of_mem _ hb)) fun b hb =>
        hgone b (List.mem_cons_of_mem _ hb)
      simp only [List.map_cons, Table.lookup_cons_eq]
      cases hown : own a with
      | true =>
          have hne : id ≠ (f a).1 := (hgone a List.mem_cons_self hown).symm
          rw [if_neg hne]
          by_cases hid : id = (f' a).1
          · exact .inr ⟨a, List.mem_cons_self, hown, hid.symm, if_pos hid⟩
          · rw [if_neg hid]
            refine ih.imp_right ?_
            rintro ⟨b, hb, h⟩
            exact ⟨b, List.mem_cons_of_mem _ hb, h⟩
      | false =>
          rw [hsame a List.mem_cons_self hown]
          by_cases hid : id = (f a).1
          · simp [hid]
          · rw [if_neg hid, if_neg hid]
            refine ih.imp_right ?_
            rintro ⟨b, hb, h⟩
            exact ⟨b, List.mem_cons_of_mem _ hb, h⟩

end lookup

/-! ## names -/

/-- Whatever the effects are called, a program is not registered under the identifier of a shader
that replaces a program of the same name. -/
theorem program_name_ne (op op' name : String) (n : Nat) :
    op ++ "/" ++ name ≠ op' ++ "/" ++ name ++ "@" ++ toString n := by
  intro h
  have hlist : (op.toList ++ ['/']) ++ name.toList =
      (op'.toList ++ ['/']) ++ (name.toList ++ '@' :: (toString n).toList) := by
    simpa using congrArg String.toList h
  rcases List.append_eq_append_iff.1 hlist with ⟨w, -, hw⟩ | ⟨w, hop, hw⟩
  · have hlength := congrArg List.length hw
    simp at hlength
    omega
  · -- what is left of the longer effect ends in a slash, which is in no number
    have hslash : '/' ∈ w := by
      rcases List.eq_nil_or_concat w with rfl | ⟨w, c, rfl⟩
      · have hlength := congrArg List.length hw
        simp at hlength
      · have hlast := congrArg List.getLast? hop
        rw [List.concat_eq_append, ← List.append_assoc, List.getLast?_concat, List.getLast?_concat]
          at hlast
        simp [← Option.some.inj hlast]
    have hcount := congrArg (List.count '/') hw
    have hdigits : List.count '/' ('@' :: (toString n).toList) = 0 := by
      refine List.count_eq_zero_of_not_mem fun hmem => ?_
      rcases List.mem_cons.1 hmem with hat | hdigit
      · exact absurd hat (by decide)
      · exact absurd (toString_digits n _ hdigit) (by decide)
    rw [List.count_append, List.count_append, hdigits] at hcount
    have hpos := List.count_pos_iff.2 hslash
    omega

namespace Graph

/-- The identifier that a program of a step is registered under. -/
def Expander.programId (x : Expander) (s : Step) (name : String) : String :=
  match x.overrides.reverse.find? (·.replaces s name) with
  | some o => o.id s.op
  | none => s.op ++ "/" ++ name

theorem Expander.program_fst (x : Expander) (s : Step) (name : String) (shader : Shader) :
    (x.program s name shader).1 = x.programId s name := by
  rw [program_eq, programId]
  cases x.overrides.reverse.find? (·.replaces s name) <;> rfl

theorem Expander.programId_ne_blit (x : Expander) (s : Step) (name : String) :
    x.programId s name ≠ "blit" := by
  rw [← program_fst x s name default]
  exact program_ne_blit x s name default

theorem Expander.programId_reshade (x : Expander) (o : ShaderOverride) (s : Step) (name : String) :
    (x.reshade o).programId s name = if o.replaces s name then o.id s.op else x.programId s
      name := by
  rw [← program_fst _ s name default, program_reshade, ← program_fst x s name default]
  split <;> rfl

namespace ShaderOverride

variable (o : ShaderOverride) (p : Plan) (lookup : String → Option Descriptor)
    (overrides : List ShaderOverride)

/-- The shader stays in its step: it is what the graph has under its identifier, and every other
program that an effect of the plan declares is what it is without the shader. -/
structure Confined : Prop where
  own : ∀ s name shader, (s, name, shader) ∈ declared lookup p.steps → o.replaces s name = true →
    (p.expand lookup (overrides ++ [o])).programs.get? (o.id s.op) = some o.shader
  others : ∀ s name shader, (s, name, shader) ∈ declared lookup p.steps →
    o.replaces s name = false →
    (p.expand lookup (overrides ++ [o])).programs.get?
      (Expander.programId ⟨p, lookup, overrides⟩ s name) =
      (p.expand lookup overrides).programs.get? (Expander.programId ⟨p, lookup, overrides⟩ s name)

/-- The names are clear of each other: what has the identifier of the shader without it is the
same shader, and what has the name of the program that it replaces with it is what had it before. -/
structure Clear : Prop where
  own : ∀ s name shader, (s, name, shader) ∈ declared lookup p.steps → o.replaces s name = true →
    ∀ other, (p.expand lookup overrides).programs.get? (o.id s.op) = some other → other = o.shader
  others : ∀ s name shader, (s, name, shader) ∈ declared lookup p.steps → o.replaces s name = true →
    ∀ other, (p.expand lookup (overrides ++ [o])).programs.get? (s.op ++ "/" ++ name) = some other →
      (p.expand lookup overrides).programs.get? (s.op ++ "/" ++ name) = some other

variable {o p lookup overrides}

theorem replaces_iff {s : Step} {name : String} :
    o.replaces s name = true ↔ o.step = s.temp ∧ o.program = name := by
  simp [replaces]

/-- No other shader replaces the same program. -/
def New (o : ShaderOverride) (overrides : List ShaderOverride) : Prop :=
  ∀ o' ∈ overrides, ¬ (o'.step = o.step ∧ o'.program = o.program)

/-- A program with no override before has the id of its effect. -/
theorem New.programId (h : o.New overrides) {s : Step} {name : String}
    (hs : o.replaces s name = true) :
    Expander.programId ⟨p, lookup, overrides⟩ s name = s.op ++ "/" ++ name := by
  have hnone : overrides.reverse.find? (·.replaces s name) = none := by
    refine List.find?_eq_none.2 fun o' ho' hreplaces => h o' (List.mem_reverse.1 ho') ?_
    rw [replaces_iff] at hs hreplaces
    exact ⟨hreplaces.1.trans hs.1.symm, hreplaces.2.trans hs.2.symm⟩
  rw [Expander.programId, hnone]

/-- The name of a program that is replaced is not the identifier of the shader. -/
theorem replaced_ne_id {s : Step} {name : String} (hs : o.replaces s name = true) (op : String) :
    s.op ++ "/" ++ name ≠ o.id op := by
  rw [← (replaces_iff.1 hs).2]
  exact program_name_ne s.op op o.program o.step

theorem id_ne_blit (o : ShaderOverride) (op : String) : o.id op ≠ "blit" :=
  Expander.ne_blit_of_slash (by simp [ShaderOverride.id])

/-! ## what a name stands for -/

/-- The programs of a graph are those declared by its steps. -/
theorem isSome_programs_expand {id : String} (hid : id ≠ "blit") :
    ((p.expand lookup overrides).programs.get? id).isSome = true ↔ ∃ s name shader,
      (s, name, shader) ∈ declared lookup p.steps ∧
      Expander.programId ⟨p, lookup, overrides⟩ s name = id := by
  rw [Plan.get?_programs_expand _ _ _ hid, ← List.map_reverse, isSome_lookup_map]
  simp only [List.mem_reverse, Prod.exists, Expander.program_fst]

/-- A pass whose program is not declared runs nothing. -/
theorem get?_programs_expand_empty (p : Plan) (lookup : String → Option Descriptor)
    (overrides : List ShaderOverride) :
    (p.expand lookup overrides).programs.get? "" = none := by
  rw [← Option.not_isSome_iff_eq_none, isSome_programs_expand (by decide)]
  rintro ⟨s, name, shader, -, hname⟩
  have hslash := Expander.slash_mem_program ⟨p, lookup, overrides⟩ s name shader
  rw [Expander.program_fst, hname] at hslash
  simp at hslash

/-- The programs of a graph under one more override. -/
theorem isSome_programs_reshade {id : String} (hid : id ≠ "blit") :
    ((p.expand lookup (overrides ++ [o])).programs.get? id).isSome = true ↔ ∃ s name shader,
      (s, name, shader) ∈ declared lookup p.steps ∧
        (if o.replaces s name then o.id s.op else Expander.programId ⟨p, lookup, overrides⟩ s
          name) = id := by
  rw [isSome_programs_expand hid]
  simp only [← Expander.programId_reshade]
  rfl

/-- A name that no replaced program has stands for what it stands for without the shader, or it
is the identifier of the shader and stands for that. -/
theorem get?_programs_reshade {id : String} (hid : id ≠ "blit")
    (hgone : ∀ s name shader, (s, name, shader) ∈ declared lookup p.steps →
      o.replaces s name = true →
      Expander.programId ⟨p, lookup, overrides⟩ s name ≠ id) :
    (p.expand lookup (overrides ++ [o])).programs.get? id =
      (p.expand lookup overrides).programs.get? id ∨
      (p.expand lookup (overrides ++ [o])).programs.get? id = some o.shader ∧ ∃ s name shader,
        (s, name, shader) ∈ declared lookup p.steps ∧ o.replaces s name = true ∧
        o.id s.op = id := by
  let f := fun e : Step × String × Shader => Expander.program ⟨p, lookup, overrides⟩ e.1 e.2.1 e.2.2
  let f' := fun e : Step × String × Shader =>
    Expander.program ⟨p, lookup, overrides ++ [o]⟩ e.1 e.2.1 e.2.2
  have hprogram : ∀ e, f' e = if o.replaces e.1 e.2.1 then (o.id e.1.op, o.shader) else f e :=
    fun e => Expander.program_reshade o ⟨p, lookup, overrides⟩ e.1 e.2.1 e.2.2
  have hsame : ∀ e ∈ (declared lookup p.steps).reverse, o.replaces e.1 e.2.1 = false →
      f' e = f e := by
    intro e _ he
    simp [hprogram, he]
  have hgone' : ∀ e ∈ (declared lookup p.steps).reverse, o.replaces e.1 e.2.1 = true →
      (f e).1 ≠ id := by
    intro e he hown
    simp only [f, Expander.program_fst]
    exact hgone e.1 e.2.1 e.2.2 (List.mem_reverse.1 he) hown
  rw [Plan.get?_programs_expand _ _ _ hid, Plan.get?_programs_expand _ _ _ hid, ← List.map_reverse,
    ← List.map_reverse]
  rcases lookup_map_changed hsame hgone' with heq | ⟨e, he, hown, hname, hshader⟩
  · exact .inl heq
  · rw [hprogram, hown] at hname hshader
    exact .inr ⟨hshader, e.1, e.2.1, e.2.2, List.mem_reverse.1 he, hown, hname⟩

/-! ## confinement -/

/-- An override that is confined is clear of the other programs. -/
theorem Confined.clear (h : o.Confined p lookup overrides) (hnew : o.New overrides) :
    o.Clear p lookup overrides where
  own s name shader hs hreplaces other hother := by
    obtain ⟨s', name', shader', hs', hname⟩ :=
      (isSome_programs_expand (o.id_ne_blit s.op)).1 (Option.isSome_of_eq_some hother)
    -- another program has the identifier, and comes to the shader
    have hothers : o.replaces s' name' = false := by
      refine Bool.eq_false_iff.2 fun hreplaces' => replaced_ne_id hreplaces' s.op ?_
      rw [← hnew.programId hreplaces', hname]
    have hshader := h.own s name shader hs hreplaces
    rw [← hname, h.others s' name' shader' hs' hothers, hname, hother] at hshader
    exact Option.some.inj hshader
  others s name shader hs hreplaces other hother := by
    have hblit : s.op ++ "/" ++ name ≠ "blit" := Expander.ne_blit_of_slash (by simp)
    obtain ⟨s', name', shader', hs', hname⟩ :=
      (isSome_programs_reshade hblit).1 (Option.isSome_of_eq_some hother)
    cases hreplaces' : o.replaces s' name' with
    | true =>
        rw [if_pos hreplaces'] at hname
        exact absurd hname.symm (replaced_ne_id hreplaces s'.op)
    | false =>
        rw [if_neg (by simp [hreplaces'])] at hname
        rw [← hname, ← h.others s' name' shader' hs' hreplaces', hname, hother]

/-- An override that is clear of the other programs is confined. -/
theorem Clear.confined (h : o.Clear p lookup overrides) (hnew : o.New overrides) :
    o.Confined p lookup overrides where
  own s name shader hs hreplaces := by
    have hthere : ((p.expand lookup (overrides ++ [o])).programs.get? (o.id s.op)).isSome = true :=
      (isSome_programs_reshade (o.id_ne_blit s.op)).2 ⟨s, name, shader, hs, if_pos hreplaces⟩
    have hgone : ∀ s' name' shader', (s', name', shader') ∈ declared lookup p.steps →
        o.replaces s' name' = true →
        Expander.programId ⟨p, lookup, overrides⟩ s' name' ≠ o.id s.op := by
      intro s' name' _ _ hreplaces'
      rw [hnew.programId hreplaces']
      exact replaced_ne_id hreplaces' s.op
    rcases get?_programs_reshade (o.id_ne_blit s.op) hgone with heq | ⟨heq, -⟩
    · obtain ⟨other, hother⟩ := Option.isSome_iff_exists.1 hthere
      rw [hother, h.own s name shader hs hreplaces other (heq ▸ hother)]
    · exact heq
  others s name shader hs hreplaces := by
    have hblit : Expander.programId ⟨p, lookup, overrides⟩ s name ≠ "blit" :=
      Expander.programId_ne_blit _ s name
    have hbefore := (isSome_programs_expand hblit).2 ⟨s, name, shader, hs, rfl⟩
    have hthere := (isSome_programs_reshade (o := o) hblit).2
      ⟨s, name, shader, hs, if_neg (by simp [hreplaces])⟩
    generalize Expander.programId ⟨p, lookup, overrides⟩ s name = id at hblit hbefore hthere ⊢
    by_cases hgone : ∃ s' name' shader', (s', name', shader') ∈ declared lookup p.steps ∧
        o.replaces s' name' = true ∧ Expander.programId ⟨p, lookup, overrides⟩ s' name' = id
    · obtain ⟨s', name', shader', hs', hreplaces', hname⟩ := hgone
      obtain ⟨other, hother⟩ := Option.isSome_iff_exists.1 hthere
      rw [hnew.programId hreplaces'] at hname
      rw [hother, ← hname, h.others s' name' shader' hs' hreplaces' other (hname ▸ hother)]
    · rcases get?_programs_reshade hblit fun s' name' shader' hs' hreplaces' heq =>
        hgone ⟨s', name', shader', hs', hreplaces', heq⟩ with heq
          | ⟨heq, s', name', shader', hs', hreplaces', hid⟩
      · exact heq
      · obtain ⟨other, hother⟩ := Option.isSome_iff_exists.1 hbefore
        rw [heq, hother, h.own s' name' shader' hs' hreplaces' other (hid ▸ hother)]

/-- Where the shader is confined, what each pass runs is as it should be: the shader where it
replaces a program, and what it runs without the shader everywhere else. -/
theorem Confined.resolves (h : o.Confined p lookup overrides) {q : Graph.Pass}
    (hq : q ∈ (p.expand lookup overrides).passes) :
    (p.expand lookup (overrides ++ [o])).programs.get? (o.reshade lookup q).program =
      if o.uses lookup q then some o.shader else (p.expand lookup overrides).programs.get?
        q.program := by
  obtain ⟨s, hs, ⟨out, image, target, rfl⟩
      | ⟨d, place, e, uniforms, inputs, outputs, hd, he, rfl⟩⟩ :=
    p.made_or_copy lookup overrides hq
  · -- the copies of both graphs are the same, and so is the program they run
    have hcopies : (p.expand lookup (overrides ++ [o])).passes.any (·.isCopy) =
        (p.expand lookup overrides).passes.any (·.isCopy) := by
      have hkept : ∀ q, (o.reshade lookup q).isCopy = q.isCopy := fun q => by
        unfold reshade
        split <;> rfl
      rw [p.expand_reshade, List.any_map]
      exact congrArg (List.any _) (funext hkept)
    rw [Expander.reshade_copy, Expander.uses_copy, if_neg (by simp)]
    show (p.expand lookup (overrides ++ [o])).programs.get? "blit" =
      (p.expand lookup overrides).programs.get? "blit"
    rw [p.get?_blit_expand, p.get?_blit_expand, hcopies]
  · have huses := Expander.uses_made (x := ⟨p, lookup, overrides⟩) o hd he uniforms inputs outputs
    unfold reshade
    rw [huses]
    cases hshader : d.programs.get? e.program with
    | none =>
        have hprogram : (Expander.made ⟨p, lookup, overrides⟩ s d uniforms place e inputs
            outputs).program = "" := by
          simp [Expander.made, hshader]
        have hcontains : d.programs.contains e.program = false := by simp [Table.contains, hshader]
        simp only [hcontains, Bool.and_false, Bool.false_eq_true, if_false]
        rw [hprogram, get?_programs_expand_empty, get?_programs_expand_empty]
    | some shader =>
        have hdeclared : (s, e.program, shader) ∈ declared lookup p.steps :=
          mem_declared.2 ⟨hs, d, hd, hshader⟩
        have hcontains : d.programs.contains e.program = true := by simp [Table.contains, hshader]
        have hprogram : (Expander.made ⟨p, lookup, overrides⟩ s d uniforms place e inputs
            outputs).program =
            Expander.programId ⟨p, lookup, overrides⟩ s e.program := by
          simp [Expander.made, hshader, Expander.program_fst]
        cases hreplaces : o.replaces s e.program with
        | true =>
            rw [hcontains]
            exact h.own s e.program shader hdeclared hreplaces
        | false =>
            simp only [Bool.false_and, Bool.false_eq_true, if_false]
            rw [hprogram]
            exact h.others s e.program shader hdeclared hreplaces

/-- A shader that replaces a program of a step changes, apart from the programs of the graph, what
some passes of the step run, and nothing else.  The passes that use the program come to the
shader, and all others to the programs that they come to without it, if the names are clear of
each other: this is just when the shader has its identifier for itself, and every other program
that the plan declares is what it was. -/
theorem confined_iff (p : Plan) (lookup : String → Option Descriptor)
    (overrides : List ShaderOverride) (o : ShaderOverride) (hnew : o.New overrides) :
    p.expand lookup (overrides ++ [o]) =
        { p.expand lookup overrides with
          passes := (p.expand lookup overrides).passes.map (o.reshade lookup)
          programs := (p.expand lookup (overrides ++ [o])).programs } ∧
      (o.Confined p lookup overrides ↔ o.Clear p lookup overrides) ∧
      (o.Clear p lookup overrides → ∀ q ∈ (p.expand lookup overrides).passes,
        (p.expand lookup (overrides ++ [o])).programs.get? (o.reshade lookup q).program =
          if o.uses lookup q then some o.shader else (p.expand lookup overrides).programs.get?
            q.program) :=
  ⟨p.expand_reshade lookup overrides o, ⟨fun h => h.clear hnew, fun h => h.confined hnew⟩,
    fun h _ hq => (h.confined hnew).resolves hq⟩

end ShaderOverride

end Graph

/-! ## plain names -/

/-- Texts split at a character they do not hold are equal part by part. -/
theorem append_cons_inj {c : Char} {u v m n : List Char} (hm : c ∉ m) (hn : c ∉ n)
    (h : u ++ c :: m = v ++ c :: n) :
    u = v ∧ m = n := by
  rcases List.append_eq_append_iff.1 h with ⟨w, rfl, hw⟩ | ⟨w, rfl, hw⟩
  · cases w with
    | nil => exact ⟨(List.append_nil u).symm, List.tail_eq_of_cons_eq hw⟩
    | cons a w => exact absurd (by rw [List.tail_eq_of_cons_eq hw]; simp) hm
  · cases w with
    | nil => exact ⟨List.append_nil v, (List.tail_eq_of_cons_eq hw).symm⟩
    | cons a w => exact absurd (by rw [List.tail_eq_of_cons_eq hw]; simp) hn

namespace Graph.ShaderOverride

variable {o o' : ShaderOverride} {p : Plan} {lookup : String → Option Descriptor}
    {overrides : List ShaderOverride}

/-- A name of a program that identifiers can be told from. -/
def Plain (name : String) : Prop := '/' ∉ name.toList ∧ '@' ∉ name.toList

/-- The effect and the name are read off the name of a program. -/
theorem Plain.inj {op op' name name' : String} (h : Plain name) (h' : Plain name')
    (heq : op ++ "/" ++ name = op' ++ "/" ++ name') : op = op' ∧ name = name' := by
  have hlist : op.toList ++ '/' :: name.toList = op'.toList ++ '/' :: name'.toList := by
    simpa using congrArg String.toList heq
  obtain ⟨hop, hname⟩ := append_cons_inj h.1 h'.1 hlist
  exact ⟨String.toList_injective hop, String.toList_injective hname⟩

/-- What stands behind the last slash of an identifier: the name and the number of the step. -/
theorem toList_id (o : ShaderOverride) (op : String) :
    (o.id op).toList = op.toList ++ '/' ::
      (o.program.toList ++ '@' :: (toString o.step).toList) := by
  simp [ShaderOverride.id]

theorem slash_notMem (h : Plain o.program) :
    '/' ∉ o.program.toList ++ '@' :: (toString o.step).toList := by
  simp only [List.mem_append, List.mem_cons, not_or]
  exact ⟨h.1, by decide, fun hdigit => absurd (toString_digits o.step _ hdigit) (by decide)⟩

/-- No plain name is an identifier. -/
theorem Plain.ne_id {name : String} (h : Plain name) (ho : Plain o.program) (op op' : String) :
    op ++ "/" ++ name ≠ o.id op' := by
  intro heq
  have hlist := congrArg String.toList heq
  rw [toList_id] at hlist
  have hname := (append_cons_inj (u := op.toList) h.1 (slash_notMem ho) (by simpa using hlist)).2
  exact h.2 (by rw [hname]; simp)

/-- Identifiers tell the step and the program, if the names of programs have no slash. -/
theorem id_inj (ho : Plain o.program) (ho' : Plain o'.program) {op op' : String}
    (heq : o.id op = o'.id op') :
    o.step = o'.step ∧ o.program = o'.program := by
  have hlist := congrArg String.toList heq
  rw [toList_id, toList_id] at hlist
  have hrest := (append_cons_inj (slash_notMem ho) (slash_notMem ho') hlist).2
  have hdigits : ∀ n : Nat, '@' ∉ (toString n).toList :=
    fun n hdigit => absurd (toString_digits n _ hdigit) (by decide)
  obtain ⟨hprogram, hstep⟩ := append_cons_inj (hdigits o.step) (hdigits o'.step) hrest
  exact ⟨toString_injective hstep, String.toList_injective hprogram⟩

section plain

variable (hplain : ∀ s name shader, (s, name, shader) ∈ declared lookup p.steps → Plain name)

include hplain

/-- Under the name of a declared program the graph has that program. -/
theorem eq_of_get?_plain {s : Step} {name : String} {shader other : Shader}
    (hs : (s, name, shader) ∈ declared lookup p.steps)
    (hother : (p.expand lookup overrides).programs.get? (s.op ++ "/" ++ name) = some other) :
    other = shader := by
  have hblit : s.op ++ "/" ++ name ≠ "blit" := Expander.ne_blit_of_slash (by simp)
  rw [p.get?_programs_expand _ _ hblit, List.lookup_eq_some_iff] at hother
  obtain ⟨before, after, hsplit, -⟩ := hother
  have hmem : (s.op ++ "/" ++ name, other) ∈ ((declared lookup p.steps).map fun e =>
      Expander.program ⟨p, lookup, overrides⟩ e.1 e.2.1 e.2.2).reverse := by simp [hsplit]
  obtain ⟨⟨s', name', shader'⟩, hs', hprogram⟩ := List.mem_map.1 (List.mem_reverse.1 hmem)
  have hname' := hplain s' name' shader' hs'
  rw [Expander.program_eq] at hprogram
  split at hprogram
  · next o' ho' =>
      have hreplaces' : o'.replaces s' name' = true := by simpa using List.find?_some ho'
      have hplain' : Plain o'.program := (replaces_iff.1 hreplaces').2 ▸ hname'
      exact absurd (congrArg Prod.fst hprogram).symm
        ((hplain s name shader hs).ne_id hplain' s.op s'.op)
  · obtain ⟨hop, rfl⟩ := hname'.inj (hplain s name shader hs) (congrArg Prod.fst hprogram)
    obtain ⟨-, d, hd, hshader⟩ := mem_declared.1 hs
    obtain ⟨-, d', hd', hshader'⟩ := mem_declared.1 hs'
    have hsame : d' = d := Option.some.inj (by rw [← hd', ← hd]; exact congrArg lookup hop)
    have hother : shader' = other := congrArg Prod.snd hprogram
    rw [← hother]
    exact Option.some.inj (hshader'.symm.trans (hsame ▸ hshader))

/-- Where the names of programs are plain, the names are clear of each other. -/
theorem clear_of_plain (hnew : o.New overrides) : o.Clear p lookup overrides where
  own s name shader hs hreplaces other hother := by
    obtain ⟨s', name', shader', hs', hname⟩ :=
      (isSome_programs_expand (o.id_ne_blit s.op)).1 (Option.isSome_of_eq_some hother)
    have ho : Plain o.program := (replaces_iff.1 hreplaces).2 ▸ hplain s name shader hs
    have hname' := hplain s' name' shader' hs'
    unfold Expander.programId at hname
    split at hname
    · next o' ho' =>
        have hreplaces' : o'.replaces s' name' = true := by simpa using List.find?_some ho'
        have hplain' : Plain o'.program := (replaces_iff.1 hreplaces').2 ▸ hname'
        exact absurd (id_inj hplain' ho hname)
          (hnew o' (List.mem_reverse.1 (List.mem_of_find?_eq_some ho')))
    · exact absurd hname (hname'.ne_id ho s'.op s.op)
  others s name shader hs hreplaces other hother := by
    have hblit : s.op ++ "/" ++ name ≠ "blit" := Expander.ne_blit_of_slash (by simp)
    have hbefore := (isSome_programs_expand hblit).2 ⟨s, name, shader, hs, hnew.programId hreplaces⟩
    obtain ⟨other', hother'⟩ := Option.isSome_iff_exists.1 hbefore
    rw [hother', eq_of_get?_plain hplain hs hother, eq_of_get?_plain hplain hs hother']

end plain

end Graph.ShaderOverride

/-! ## a program with the name of another in a step -/

/-- An effect whose second program is named like the first one of step 0. -/
def twinEffect : Descriptor where
  name := "twin"
  programs := .ofList [("main", { wgsl := "draw" }), ("main@0", { wgsl := "mix" })]
  passes := [{ program := "main", outputs := .ofList [("color", "outputTex")] },
    { program := "main@0", outputs := .ofList [("color", "outputTex")] }]

/-- Two steps of the effect. -/
def twinPlan : Plan where
  steps := [{ op := "twin", temp := 0, out := some ⟨.output, 0⟩ },
    { op := "twin", temp := 1, out := some ⟨.output, 1⟩ }]

def twinCatalog (op : String) : Option Descriptor := if op = "twin" then some twinEffect else none

/-- A shader for the first program of step 0. -/
def twinShader : ShaderOverride := { step := 0, program := "main", shader := { wgsl := "glow" } }

/-- The shader is lost: its identifier is the name of the second program, which the later step
registers over it. -/
theorem twin_shader_lost : twinShader.New [] ∧ ¬ twinShader.Clear twinPlan twinCatalog [] ∧
    ((twinPlan.expand twinCatalog []).passes.map fun q => (q.id, twinShader.uses twinCatalog q)) =
      [("node_0_pass_0", true), ("node_0_pass_1", false), ("node_1_pass_0", false),
        ("node_1_pass_1", false)] ∧
    ((twinPlan.expand twinCatalog [twinShader]).passes.map fun q =>
        (q.program, ((twinPlan.expand twinCatalog [twinShader]).programs.get? q.program).map
          (·.wgsl))) =
      [("twin/main@0", some "mix"), ("twin/main@0", some "mix"), ("twin/main", some "draw"),
        ("twin/main@0", some "mix")] := by
  have hnew : twinShader.New [] := by simp [ShaderOverride.New]
  refine ⟨hnew, fun hclear => ?_, by decide +kernel, by decide +kernel⟩
  have hall := List.map_congr_left
    ((ShaderOverride.confined_iff twinPlan twinCatalog [] twinShader hnew).2.2 hclear)
  exact absurd hall (by decide +kernel)

end EffectChain
