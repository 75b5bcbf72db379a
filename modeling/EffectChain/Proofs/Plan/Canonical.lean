import EffectChain.Proofs.Data.Table
import EffectChain.Proofs.Plan.Shown
import EffectChain.Proofs.Token.Closures
import EffectChain.Registry.Operations
import Mathlib.Data.List.Forall2

/-!
# EffectChain.Proofs.Plan.Canonical

What the canonical text of a plan tells.

The line of a step is its number, its operation and its fields (`Step.toList_canonical`).
When the names of the registry are plain and no closure looks like two fields, the text
tells the lines, a line tells its fields and the fields tell the arguments, the surface,
the repetition and the guards, but for the numbers that are written to six places
(`Plan.eq_of_canonical`).  It says nothing of which arguments were written and of the
places in the source.
-/

namespace EffectChain

/-! ## what plans hold -/

/-- The keys of the fields that are no arguments. -/
def reservedKeys : List String := ["out", "repeat", "if"]

/-- The names of an operation's arguments can be told apart in a line, and so can its
defaults. -/
def OpSpec.isPlain (spec : OpSpec) : Bool :=
  decide spec.argNames.Nodup && spec.args.all fun a =>
    Fields.isWord a.name && !reservedKeys.contains a.name &&
      match a.default with
      | .text s => Fields.isClear s.toList
      | _ => true

/-- The names of all operations and of their arguments can be told apart in a line. -/
def Registry.isPlain (r : Registry) : Bool :=
  r.ops.specs.entries.all fun (op, spec) => !op.toList.contains ' ' && spec.isPlain

/-- A closure of the signal is one that something ends. -/
def Signal.Closed : Signal → Prop
  | .closure source _ => Lexer.ClosureSource source
  | _ => True

/-- A condition or a count that programs have. -/
structure Dynamic.Bare (d : Dynamic) : Prop where
  sound : d.signal.Sound
  closed : d.signal.Closed
  min : d.min = none
  max : d.max = none

/-- A step that plans have: the call of an operation of the registry with values that
fit its arguments. -/
structure Step.Made (r : Registry) (s : Step) : Prop where
  spec : ∃ spec, r.ops.lookup? s.op = some spec ∧
    ∀ k v, (k, v) ∈ s.args.entries → ∃ a ∈ spec.args, a.name = k ∧ v.Fits a
  guards : ∀ g ∈ s.guards, g.Bare
  count : 0 < s.repetition.count
  factor : ∀ d, s.repetition.factor = some d → d.Bare

/-- No closure of the step looks like two fields. -/
def Step.isClear (s : Step) : Bool :=
  s.args.entries.all (·.2.isClear) && s.repetition.factor.all Dynamic.isClear &&
    s.guards.all Dynamic.isClear

/-- The numbers that the line of the step gives to six places only: of its arguments,
its factor and its guards. -/
def Step.hidden (s : Step) : List (List Float) × Option (List Float) × List (List Float) :=
  (s.args.entries.map (·.2.hidden), s.repetition.factor.map (·.signal.hidden),
    s.guards.map (·.signal.hidden))

/-- The steps are the same but for what was written and where. -/
def Step.Alike (s t : Step) : Prop :=
  { s with explicit := t.explicit, ns := t.ns, pos := t.pos } = t

/-! ## lists -/

/-- Lists are told by what two functions give when these tell their elements. -/
theorem eq_of_map_eq {α β γ : Type} {f : α → β} {g : α → γ} {xs ys : List α}
    (hf : xs.map f = ys.map f) (hg : xs.map g = ys.map g)
    (h : ∀ x ∈ xs, ∀ y ∈ ys, f x = f y → g x = g y → x = y) : xs = ys := by
  induction xs generalizing ys with
  | nil => exact (List.map_eq_nil_iff.1 hf.symm).symm
  | cons x xs ih =>
    cases ys with
    | nil => simp at hf
    | cons y ys =>
      rw [List.map_cons, List.map_cons, List.cons.injEq] at hf hg
      rw [h x (by simp) y (by simp) hf.1 hg.1,
        ih hf.2 hg.2 fun a ha b hb => h a (List.mem_cons_of_mem x ha) b (List.mem_cons_of_mem y hb)]

/-- A list is split where a property ends. -/
theorem split_of_append {α : Type} {p : α → Prop} {as bs xs ys : List α} (ha : ∀ f ∈ as, p f)
    (hb : ∀ f ∈ bs, p f) (hx : ∀ f ∈ xs, ¬ p f) (hy : ∀ f ∈ ys, ¬ p f) (h : as ++ xs = bs ++ ys) :
    as = bs ∧ xs = ys := by
  classical
  have hfilter : ∀ {us vs : List α}, (∀ f ∈ us, p f) → (∀ f ∈ vs, ¬ p f) →
      (us ++ vs).filter p = us := by
    intro us vs hu hv
    rw [List.filter_append, List.filter_eq_self.2 fun f hf => decide_eq_true (hu f hf),
      List.filter_eq_nil_iff.2 fun f hf => by simpa using hv f hf, List.append_nil]
  have hfront : as = bs := by rw [← hfilter ha hx, h, hfilter hb hy]
  exact ⟨hfront, List.append_cancel_left (hfront ▸ h)⟩

/-! ## lines -/

namespace Step

def argFields (s : Step) : List (String × String) := s.args.entries.map fun (k, v) => (k, v.shown)

def outField (s : Step) : List (String × String) :=
  match s.out with
  | some o => [("out", o.name)]
  | none => []

def repeatField (s : Step) : List (String × String) :=
  if s.repetition.isOnce then []
  else [("repeat", toString s.repetition.count ++
    match s.repetition.factor with
    | some d => "*" ++ d.text
    | none => "")]

def guardFields (s : Step) : List (String × String) := s.guards.map fun g => ("if", g.text)

/-- The fields of a line in order. -/
def fields (s : Step) : List (String × String) :=
  ("from", s.sourceText) :: (s.argFields ++ (s.outField ++ (s.repeatField ++ s.guardFields)))

/-- A step is written as its number, its operation and its fields. -/
theorem toList_canonical (s : Step) : s.canonical.toList =
    (toString s.temp).toList ++ ' ' ::
      (s.op.toList ++ (s.fields.flatMap Fields.text ++ ['\n'])) := by
  have hargs : ((s.args.entries.map fun (k, v) => " " ++ k ++ "=" ++ v.shown).flatMap
      String.toList) =
      s.argFields.flatMap Fields.text := by
    simp [argFields, List.flatMap_map, Fields.text]
  have hguards : ((s.guards.map fun g => " if=" ++ g.text).flatMap String.toList) =
      s.guardFields.flatMap Fields.text := by
    simp [guardFields, List.flatMap_map, Fields.text]
  unfold canonical fields outField repeatField
  simp only [String.toList_append, String.toList_join, hargs, hguards, List.flatMap_cons,
    List.flatMap_append, List.append_assoc]
  cases s.out <;> cases s.repetition.isOnce <;> cases s.repetition.factor <;> simp [Fields.text]

/-- The field of the target is called `out`. -/
theorem key_of_outField {s : Step} {f : String × String} (h : f ∈ s.outField) : f.1 = "out" := by
  unfold outField at h
  split at h
  · rw [List.mem_singleton.1 h]
  · simp at h

/-- The field of the repetition is called `repeat`. -/
theorem key_of_repeatField {s : Step} {f : String × String} (h : f ∈ s.repeatField) :
    f.1 = "repeat" := by
  unfold repeatField at h
  split at h
  · simp at h
  · rw [List.mem_singleton.1 h]

theorem key_of_guardFields {s : Step} {f : String × String} (h : f ∈ s.guardFields) :
    f.1 = "if" := by
  obtain ⟨g, -, rfl⟩ := List.mem_map.1 h
  rfl

/-- The keys say which fields are arguments. -/
theorem parts_of_fields {s t : Step} (hs : ∀ f ∈ s.argFields, f.1 ∉ reservedKeys)
    (ht : ∀ f ∈ t.argFields, f.1 ∉ reservedKeys) (h : s.fields = t.fields) :
    s.sourceText = t.sourceText ∧ s.argFields = t.argFields ∧ s.outField = t.outField ∧
      s.repeatField = t.repeatField ∧ s.guardFields = t.guardFields := by
  have hout : "out" ∈ reservedKeys ∧ "repeat" ∈ reservedKeys ∧ "if" ∈ reservedKeys := by decide
  have hlater : ∀ {u : Step}, ∀ f ∈ u.repeatField ++ u.guardFields, f.1 = "repeat" ∨
      f.1 = "if" := by
    intro u f hf
    rcases List.mem_append.1 hf with hf | hf
    · exact .inl (key_of_repeatField hf)
    · exact .inr (key_of_guardFields hf)
  have hreserved : ∀ {u : Step}, ∀ f ∈ u.outField ++ (u.repeatField ++ u.guardFields),
      ¬ f.1 ∉ reservedKeys := by
    intro u f hf
    rw [not_not]
    rcases List.mem_append.1 hf with hf | hf
    · rw [key_of_outField hf]
      exact hout.1
    · rcases hlater f hf with h | h <;> rw [h]
      · exact hout.2.1
      · exact hout.2.2
  rw [fields, fields, List.cons.injEq, Prod.mk.injEq] at h
  obtain ⟨hargs, h₁⟩ := split_of_append hs ht hreserved hreserved h.2
  obtain ⟨houts, h₂⟩ := split_of_append (p := fun f => f.1 = "out") (fun f => key_of_outField)
    (fun f => key_of_outField) (fun f hf => by rcases hlater f hf with h | h <;> simp [h])
    (fun f hf => by rcases hlater f hf with h | h <;> simp [h]) h₁
  obtain ⟨hrepeats, hguards⟩ := split_of_append (p := fun f => f.1 = "repeat")
    (fun f => key_of_repeatField) (fun f => key_of_repeatField)
    (fun f hf => by simp [key_of_guardFields hf]) (fun f hf => by simp [key_of_guardFields hf]) h₂
  exact ⟨h.1.2, hargs, houts, hrepeats, hguards⟩

/-- Where the result of a step goes is told by its field. -/
theorem out_of_outField {s t : Step} (h : s.outField = t.outField) : s.out = t.out := by
  unfold outField at h
  cases hs : s.out <;> cases ht : t.out <;> simp [hs, ht] at h
  · rfl
  · rw [Surface.name_injective h]

/-- Steps whose sources are written alike have the same source. -/
theorem source_of_sourceText {s t : Step} (h : s.sourceText = t.sourceText) :
    s.source = t.source := by
  have hminus : ∀ n : Nat, toString n ≠ "-1" := by
    intro n hn
    obtain ⟨c, cs, htext, hc⟩ := toString_head n
    rw [hn] at htext
    obtain rfl : '-' = c := (List.cons.inj htext).1
    exact absurd hc (by decide)
  unfold sourceText at h
  cases hs : s.source <;> cases ht : t.source <;> rw [hs, ht] at h
  · exact absurd h.symm (hminus _)
  · exact absurd h (hminus _)
  · rw [toString_injective (congrArg String.toList h)]

/-- A step runs once just when it is not repeated. -/
theorem isOnce_iff {r : Repeat} (h : 0 < r.count) : r.isOnce = true ↔ r = {} := by
  obtain ⟨n, f⟩ := r
  simp only [Repeat.isOnce, Bool.and_eq_true, Bool.or_eq_true, decide_eq_true_iff,
    Option.isNone_iff_eq_none, Repeat.mk.injEq] at h ⊢
  constructor
  · rintro ⟨hn, hf⟩
    exact ⟨by omega, hf⟩
  · rintro ⟨hn, hf⟩
    exact ⟨.inr hn, hf⟩

/-- How often a step runs is told by its field but for what its factor hides. -/
theorem repetition_of_repeatField {s t : Step} (hs : 0 < s.repetition.count)
    (ht : 0 < t.repetition.count) (hfs : ∀ d, s.repetition.factor = some d → d.Bare)
    (hft : ∀ d, t.repetition.factor = some d → d.Bare)
    (hhidden : s.repetition.factor.map (·.signal.hidden) =
      t.repetition.factor.map (·.signal.hidden))
    (h : s.repeatField = t.repeatField) : s.repetition = t.repetition := by
  unfold repeatField at h
  by_cases hos : s.repetition.isOnce = true
  · by_cases hot : t.repetition.isOnce = true
    · rw [(isOnce_iff hs).1 hos, (isOnce_iff ht).1 hot]
    · rw [if_pos hos, if_neg hot] at h
      simp at h
  · by_cases hot : t.repetition.isOnce = true
    · rw [if_neg hos, if_pos hot] at h
      simp at h
    · rw [if_neg hos, if_neg hot] at h
      simp only [List.cons.injEq, Prod.mk.injEq, true_and, and_true] at h
      generalize s.repetition = a at *
      generalize t.repetition = b at *
      obtain ⟨m, f⟩ := a
      obtain ⟨n, g⟩ := b
      obtain ⟨m, rfl⟩ := Int.eq_ofNat_of_zero_le hs.le
      obtain ⟨n, rfl⟩ := Int.eq_ofNat_of_zero_le ht.le
      have hlist := congrArg String.toList h
      rw [String.toList_append, String.toList_append] at hlist
      have hstar : ∀ f : Option Dynamic, ∀ c : Char, c ∈ (match f with
          | some d => "*" ++ d.text
          | none => "").toList.head? → c.isDigit = false := by
        intro f c hc
        cases f <;> simp at hc
        obtain rfl := hc
        rfl
      obtain ⟨hcount, hfactor⟩ := toString_append_inj (hstar f) (hstar g) hlist
      have hfg : f = g := by
        cases f with
        | none =>
          cases g with
          | none => rfl
          | some e => simp at hhidden
        | some d =>
          cases g with
          | none => simp at hhidden
          | some e =>
            have htext : d.text = e.text := by
              rw [← String.toList_inj]
              simpa using hfactor
            have hd := hfs d rfl
            have he := hft e rfl
            rw [Dynamic.eq_of_text hd.sound he.sound (hd.min.trans he.min.symm)
              (hd.max.trans he.max.symm)
              (by simpa using hhidden) htext]
      rw [hcount, hfg]

/-! ## fields -/

variable {r : Registry} {s t : Step}

/-- The operation and the arguments of a step are plain in a plain registry. -/
theorem Made.plain (h : s.Made r) (hr : r.isPlain = true) : ∃ spec, r.ops.lookup? s.op = some spec ∧
    ' ' ∉ s.op.toList ∧ spec.argNames.Nodup ∧
    ∀ k v, (k, v) ∈ s.args.entries → ∃ a ∈ spec.args, a.name = k ∧ v.Fits a ∧
      Fields.isWord k = true ∧ k ∉ reservedKeys := by
  obtain ⟨spec, hspec, hargs⟩ := h.spec
  have hplain := List.all_eq_true.1 hr (s.op, spec) (Table.mem_entries_iff.2 hspec)
  simp only [OpSpec.isPlain, Bool.and_eq_true, decide_eq_true_iff, List.all_eq_true,
    Bool.not_eq_true', List.contains_eq_mem, decide_eq_false_iff_not] at hplain
  refine ⟨spec, hspec, hplain.1, hplain.2.1, ?_⟩
  intro k v hkv
  obtain ⟨a, ha, rfl, hfits⟩ := hargs k v hkv
  obtain ⟨⟨hword, hreserved⟩, -⟩ := hplain.2.2 a ha
  exact ⟨a, ha, rfl, hfits, hword, hreserved⟩

/-- Every field of a line can be told from the ones around it. -/
theorem Made.legible (h : s.Made r) (hr : r.isPlain = true) (hclear : s.isClear = true) :
    ∀ f ∈ s.fields, Fields.Legible f := by
  have hword : Fields.isWord "from" = true ∧ Fields.isWord "out" = true ∧
      Fields.isWord "repeat" = true ∧ Fields.isWord "if" = true := by decide
  simp only [isClear, Bool.and_eq_true, List.all_eq_true] at hclear
  obtain ⟨⟨hargs, hfactor⟩, hguards⟩ := hclear
  obtain ⟨spec, -, -, -, hplain⟩ := h.plain hr
  have hdigits : ∀ {cs : List Char}, (∀ c ∈ cs, c.isDigit = true) → ∀ c ∈ cs,
      c ≠ '\n' ∧ c ≠ ' ' := by
    intro cs hcs c hc
    constructor <;> rintro rfl <;> exact absurd (hcs _ hc) (by decide)
  intro f hf
  rw [fields, List.mem_cons, List.mem_append, List.mem_append, List.mem_append] at hf
  rcases hf with rfl | hf | hf | hf | hf
  · refine ⟨hword.1, ?_⟩
    rw [sourceText]
    split
    · rename_i n hn
      obtain ⟨c, cs, htext, hc⟩ := toString_head n
      have hquiet := Quiet.toString n
      rw [htext] at hquiet ⊢
      refine .clear ?_ (hquiet c (by simp)).2 hquiet.isClear
      rintro rfl
      exact absurd hc (by decide)
    · exact .clear (by decide) (by decide) (by decide)
  · obtain ⟨⟨k, v⟩, hkv, rfl⟩ := List.mem_map.1 hf
    obtain ⟨a, -, -, hfits, hkey, -⟩ := hplain k v hkv
    exact ⟨hkey, Value.sealed_shown hfits (hargs (k, v) hkv)⟩
  · unfold outField at hf
    split at hf
    · rename_i o ho
      obtain rfl := List.mem_singleton.1 hf
      obtain ⟨c, d, cs, htext, -, hc⟩ := o.toList_name
      have hquiet := o.quiet_name
      refine ⟨hword.2.1, ?_⟩
      dsimp only
      rw [htext] at hquiet ⊢
      refine .clear ?_ (hquiet c (by simp)).2 hquiet.isClear
      rintro rfl
      simp at hc
    · simp at hf
  · unfold repeatField at hf
    split at hf
    · simp at hf
    · obtain rfl := List.mem_singleton.1 hf
      refine ⟨hword.2.2.1, ?_⟩
      obtain ⟨n, hn⟩ := Int.eq_ofNat_of_zero_le h.count.le
      have htail : Fields.isClear (match s.repetition.factor with
          | some d => "*" ++ d.text
          | none => "").toList = true := by
        cases hd : s.repetition.factor with
        | none => rfl
        | some d =>
          rw [hd] at hfactor
          have hsealed := Dynamic.sealed_text (h.factor d hd).sound (by simpa using hfactor)
          rw [String.toList_append]
          exact Fields.isClear_append (by simp) hsealed.2
      have hall := Fields.isClear_append (hdigits (toString_digits n)) htail
      obtain ⟨c, cs, htext, hc⟩ := toString_head n
      have hfirst : c ≠ '"' ∧ c ≠ '=' := by
        constructor <;> rintro rfl <;> exact absurd hc (by decide)
      dsimp only
      rw [String.toList_append, hn]
      change Fields.Sealed ((toString n).toList ++ _)
      rw [htext] at hall ⊢
      exact .clear hfirst.1 hfirst.2 hall
  · obtain ⟨g, hg, rfl⟩ := List.mem_map.1 hf
    exact ⟨hword.2.2.2, (Dynamic.sealed_text (h.guards g hg).sound (hguards g hg)).1⟩

/-- A line tells its step but for what it hides. -/
theorem alike_of_fields (hs : s.Made r) (ht : t.Made r) (hr : r.isPlain = true)
    (hhidden : s.hidden = t.hidden) (htemp : s.temp = t.temp) (hop : s.op = t.op)
    (h : s.fields = t.fields) : s.Alike t := by
  obtain ⟨spec, hspec, -, hnodup, hargs⟩ := hs.plain hr
  obtain ⟨spec', hspec', -, -, hargs'⟩ := ht.plain hr
  obtain rfl : spec = spec' := by
    rw [hop] at hspec
    exact Option.some.inj (hspec.symm.trans hspec')
  have hreserved : ∀ {u : Step},
      (∀ k v, (k, v) ∈ u.args.entries → ∃ a ∈ spec.args, a.name = k ∧ v.Fits a ∧
      Fields.isWord k = true ∧ k ∉ reservedKeys) → ∀ f ∈ u.argFields, f.1 ∉ reservedKeys := by
    intro u hu f hf
    obtain ⟨⟨k, v⟩, hkv, rfl⟩ := List.mem_map.1 hf
    obtain ⟨a, -, -, -, -, hk⟩ := hu k v hkv
    exact hk
  obtain ⟨hsourceText, hargsText, houtField, hrepeatField, hguardsText⟩ :=
    parts_of_fields (hreserved hargs) (hreserved hargs') h
  rw [hidden, hidden, Prod.mk.injEq, Prod.mk.injEq] at hhidden
  -- the arguments: one spec for one name
  have hentries : s.args.entries = t.args.entries := by
    refine eq_of_map_eq hargsText hhidden.1 ?_
    rintro ⟨k, v⟩ hkv ⟨l, w⟩ hlw hshown hnumbers
    rw [Prod.mk.injEq] at hshown
    obtain ⟨rfl, hshown⟩ := hshown
    obtain ⟨a, ha, hak, hfits, -⟩ := hargs k v hkv
    obtain ⟨b, hb, hbk, hfits', -⟩ := hargs' k w hlw
    obtain rfl : a = b := List.inj_on_of_nodup_map hnodup ha hb (hak.trans hbk.symm)
    rw [Value.eq_of_shown hfits hfits' hnumbers hshown]
  have hguards : s.guards = t.guards := by
    refine eq_of_map_eq hguardsText hhidden.2.2 ?_
    intro g hg g' hg' htext hnumbers
    have hb := hs.guards g hg
    have hb' := ht.guards g' hg'
    exact Dynamic.eq_of_text hb.sound hb'.sound (hb.min.trans hb'.min.symm)
      (hb.max.trans hb'.max.symm)
      hnumbers (Prod.mk.inj htext).2
  have hrepetition :=
    repetition_of_repeatField hs.count ht.count hs.factor ht.factor hhidden.2.1 hrepeatField
  have hsource := source_of_sourceText hsourceText
  have hsurface := out_of_outField houtField
  have hargsEq : s.args = t.args := by
    generalize s.args = a at hentries
    generalize t.args = b at hentries
    cases a
    cases b
    obtain rfl : _ = _ := hentries
    rfl
  unfold Alike
  cases s
  cases t
  simp_all

/-- A line, and whatever stands behind it. -/
theorem canonical_append (hs : s.Made r) (ht : t.Made r) (hr : r.isPlain = true)
    (hcs : s.isClear = true) (hct : t.isClear = true) (hhidden : s.hidden = t.hidden)
    {u v : List Char} (h : s.canonical.toList ++ u = t.canonical.toList ++ v) :
    s.Alike t ∧ u = v := by
  obtain ⟨-, -, hblank, -⟩ := hs.plain hr
  obtain ⟨-, -, hblank', -⟩ := ht.plain hr
  rw [toList_canonical, toList_canonical] at h
  simp only [List.append_assoc, List.cons_append, List.nil_append] at h
  obtain ⟨htemp, hrest⟩ := toString_append_inj (by simp) (by simp) h
  have hrest := (List.cons.inj hrest).2
  -- the operation ends at the blank before its first field
  have hfirst : ∀ (x : Step) (w : List Char), ∃ z, x.fields.flatMap Fields.text ++ '\n' :: w =
      ' ' :: z :=
    fun x w => ⟨_, rfl⟩
  obtain ⟨y, hy⟩ := hfirst s u
  obtain ⟨z, hz⟩ := hfirst t v
  have hname : ∀ {op : String}, ' ' ∉ op.toList → ∀ c ∈ op.toList, (c != ' ') = true := by
    intro op hop c hc
    simp only [bne_iff_ne]
    rintro rfl
    exact hop hc
  have hop : s.op.toList = t.op.toList := by
    rw [hy, hz] at hrest
    have := congrArg (List.takeWhile (· != ' ')) hrest
    rwa [List.takeWhile_append_of_pos (hname hblank), List.takeWhile_append_of_pos (hname hblank'),
      List.takeWhile_cons_of_neg (by decide), List.takeWhile_cons_of_neg (by decide),
      List.append_nil, List.append_nil] at this
  rw [hop] at hrest
  obtain ⟨hfields, hend⟩ := Fields.fields_append (hs.legible hr hcs) (ht.legible hr hct)
    (List.append_cancel_left hrest)
  exact ⟨alike_of_fields hs ht hr hhidden htemp (String.toList_inj.1 hop) hfields, hend⟩

end Step

/-! ## plans -/

namespace Plan

/-- The steps are those of programs, and no closure looks like two fields. -/
def isClear (p : Plan) : Bool := p.steps.all Step.isClear

/-- The numbers that the canonical text gives to six places only, step by step. -/
def hidden (p : Plan) : List (List (List Float) × Option (List Float) × List (List Float)) :=
  p.steps.map Step.hidden

/-- The line of the surface that is shown. -/
def renderLine : Option Surface → String
  | some s => "render " ++ s.name ++ "\n"
  | none => ""

/-- Different targets are rendered differently. -/
theorem renderLine_injective : Function.Injective renderLine := by
  have hnone : ∀ s : Surface, renderLine (some s) ≠ "" := by
    intro s hs
    have hlist := congrArg String.toList hs
    rw [renderLine, String.toList_append, String.toList_append] at hlist
    cases hlist
  intro a b h
  cases a with
  | none =>
    cases b with
    | none => rfl
    | some t => exact absurd h.symm (hnone t)
  | some s =>
    cases b with
    | none => exact absurd h (hnone s)
    | some t =>
      have hlist := congrArg String.toList h
      simp only [renderLine, String.toList_append, List.append_cancel_right_eq,
        List.append_cancel_left_eq, String.toList_inj] at hlist
      rw [Surface.name_injective hlist]

/-- A plan is written as its search order, its steps and its target. -/
theorem toList_canonical (p : Plan) : p.canonical.toList =
    "search ".toList ++ ((",".intercalate p.search).toList ++ '\n' ::
      (p.steps.flatMap (·.canonical.toList) ++ (renderLine p.render).toList)) := by
  have hcanonical : p.canonical = "search " ++ ",".intercalate p.search ++ "\n" ++
      String.join (p.steps.map Step.canonical) ++ renderLine p.render := rfl
  rw [hcanonical]
  simp only [String.toList_append, String.toList_join, List.flatMap_map, List.append_assoc]
  rfl

/-- The lines of a plan, one step after the other. -/
theorem lines_append {r : Registry} (hr : r.isPlain = true) {ss ts : List Step}
    {a b : Option Surface} (hs : ∀ s ∈ ss, s.Made r ∧ s.isClear = true)
    (ht : ∀ t ∈ ts, t.Made r ∧ t.isClear = true) (hhidden : ss.map Step.hidden = ts.map Step.hidden)
    (h : ss.flatMap (·.canonical.toList) ++ (renderLine a).toList =
      ts.flatMap (·.canonical.toList) ++ (renderLine b).toList) :
    List.Forall₂ Step.Alike ss ts ∧ a = b := by
  induction ss generalizing ts with
  | nil =>
    obtain rfl : ts = [] := List.map_eq_nil_iff.1 hhidden.symm
    exact ⟨.nil, renderLine_injective (String.toList_inj.1 h)⟩
  | cons s ss ih =>
    cases ts with
    | nil => simp at hhidden
    | cons t ts =>
      rw [List.map_cons, List.map_cons, List.cons.injEq] at hhidden
      rw [List.flatMap_cons, List.flatMap_cons, List.append_assoc, List.append_assoc] at h
      obtain ⟨hsm, hsc⟩ := hs s (by simp)
      obtain ⟨htm, htc⟩ := ht t (by simp)
      obtain ⟨halike, hrest⟩ := Step.canonical_append hsm htm hr hsc htc hhidden.1 h
      obtain ⟨hall, hrender⟩ := ih (fun x hx => hs x (List.mem_cons_of_mem s hx))
        (fun x hx => ht x (List.mem_cons_of_mem t hx)) hhidden.2 hrest
      exact ⟨.cons halike hall, hrender⟩

/-- The canonical text of a plan tells its steps and the surface that is shown, but for
what it hides. -/
theorem eq_of_canonical {r : Registry} (hr : r.isPlain = true) {p q : Plan}
    (hp : ∀ s ∈ p.steps, s.Made r) (hq : ∀ s ∈ q.steps, s.Made r)
    (hps : '\n' ∉ (",".intercalate p.search).toList)
    (hqs : '\n' ∉ (",".intercalate q.search).toList) (hpc : p.isClear = true)
    (hqc : q.isClear = true) (hhidden : p.hidden = q.hidden) (h : p.canonical = q.canonical) :
    List.Forall₂ Step.Alike p.steps q.steps ∧ p.render = q.render := by
  have hline : ∀ {cs : List Char}, '\n' ∉ cs → ∀ c ∈ cs, (c != '\n') = true := by
    intro cs hcs c hc
    simp only [bne_iff_ne]
    rintro rfl
    exact hcs hc
  have hlist := congrArg String.toList h
  rw [toList_canonical, toList_canonical] at hlist
  have hsearch := List.append_cancel_left hlist
  have hnames := congrArg (List.takeWhile (· != '\n')) hsearch
  rw [List.takeWhile_append_of_pos (hline hps), List.takeWhile_append_of_pos (hline hqs),
    List.takeWhile_cons_of_neg (by decide), List.takeWhile_cons_of_neg (by decide), List.append_nil,
    List.append_nil] at hnames
  rw [hnames] at hsearch
  have hlines := (List.cons.inj (List.append_cancel_left hsearch)).2
  exact lines_append hr (fun s hs => ⟨hp s hs, List.all_eq_true.1 hpc s hs⟩)
    (fun s hs => ⟨hq s hs, List.all_eq_true.1 hqc s hs⟩) hhidden hlines

end Plan

end EffectChain
