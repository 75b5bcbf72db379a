import EffectChain.Plan.Lower
import EffectChain.Plan.Printer
import EffectChain.Proofs.Data.Table
import EffectChain.Proofs.Number.Reading
import EffectChain.Proofs.Program.Literal
import EffectChain.Proofs.Registry.Overlay

/-!
# EffectChain.Proofs.Plan.Constants

Numbers with a name, written and read again.

A number is written by the name it has among the choices of its argument, else by the one it has
among the constants, else by its digits; a name is read as a field of the state, else as a choice,
else as a constant.  So a name that is written is read as the number it was written for, unless
it is that of a field or the two tables disagree on it, and digits unless the range of the argument
moves them (`survives_iff`).

Constants stand in the order of their names, however trees are merged (`EnumTree.ordered_merge`).
-/

namespace EffectChain

/-! ## trees of constants -/

namespace EnumTree

/-- The children stand in the order of their names, all the way down. -/
inductive Ordered : EnumTree → Prop
  | node {v : Option Float} {cs : List (String × EnumTree)} (hnames : cs.Pairwise fun a b =>
      a.1 < b.1)
      (hcs : ∀ c ∈ cs, Ordered c.2) : Ordered (.node v cs)

namespace Ordered

variable {t : EnumTree}

theorem empty : Ordered .empty := .node .nil (by simp)

theorem names (h : t.Ordered) : t.children.Pairwise fun a b => a.1 < b.1 := by
  cases h with
  | node hnames => exact hnames

theorem child (h : t.Ordered) : ∀ c ∈ t.children, c.2.Ordered := by
  cases h with
  | node hnames hcs => exact hcs

theorem child? (h : t.Ordered) {name : String} {c : EnumTree} (hc : t.child? name = some c) :
    c.Ordered :=
  h.child (name, c) ((Table.lookup_eq_some_iff_mem h.names name c).1 hc)

/-- What is found in an ordered tree is ordered. -/
theorem find? (h : t.Ordered) {path : List String} {c : EnumTree} (hc : t.find? path = some c) :
    c.Ordered := by
  induction path generalizing t with
  | nil =>
    obtain rfl := Option.some.inj hc
    exact h
  | cons p path ih =>
    obtain ⟨d, hd, hc⟩ := Option.bind_eq_some_iff.1 hc
    exact ih (h.child? hd) hc

theorem setValue (h : t.Ordered) (v : Float) : (t.setValue v).Ordered := .node h.names h.child

/-- An ordered child may be put in place. -/
theorem setChild (h : t.Ordered) (name : String) {c : EnumTree} (hc : c.Ordered) :
    (t.setChild name c).Ordered := by
  refine .node ?_ fun d hd => ?_
  · rw [putChild_eq_insertEntry]
    exact Table.pairwise_insertEntry h.names
  · rw [putChild_eq_insertEntry] at hd
    rcases Table.mem_insertEntry hd with rfl | hd
    · exact hc
    · exact h.child d hd

end Ordered

mutual

/-- Overlaying keeps a tree ordered. -/
theorem ordered_overlay {t t' : EnumTree} (h : t.Ordered) (path : List String) (d : Document)
    (ht : t.overlay path d = .ok t') : t'.Ordered := by
  cases d with
  | map es => exact ordered_overlayEntries h path es ht
  | int i => exact Except.ok.inj ht ▸ h.setValue _
  | float x => exact Except.ok.inj ht ▸ h.setValue _
  | _ => cases ht

/-- Overlaying entries keeps a tree ordered. -/
theorem ordered_overlayEntries {t t' : EnumTree} (h : t.Ordered) (path : List String)
    (es : List (String × Document)) (ht : t.overlayEntries path es = .ok t') : t'.Ordered := by
  cases es with
  | nil => exact Except.ok.inj ht ▸ h
  | cons e es =>
    obtain ⟨key, d⟩ := e
    have hchild : ((t.child? key).getD empty).Ordered := by
      cases hc : t.child? key with
      | none => exact .empty
      | some c => exact h.child? hc
    rw [overlayEntries] at ht
    cases hoverlay : ((t.child? key).getD empty).overlay (path ++ [key]) d with
    | error err =>
      rw [hoverlay] at ht
      cases ht
    | ok c =>
      rw [hoverlay] at ht
      exact ordered_overlayEntries (h.setChild key (ordered_overlay hchild _ d hoverlay)) path es ht

end

/-- A tree keeps its order when constants are merged into it. -/
theorem ordered_merge {t t' : EnumTree} (h : t.Ordered) (entries : List (String × Document))
    (ht : t.merge entries = .ok t') : t'.Ordered := ordered_overlayEntries h [] _ ht

/-- The name a value has among the children of a node is read as that value in the node's space. -/
theorem lookupWithin?_reverse {t node : EnumTree} (ht : t.Ordered) {space : List String}
    (hspace : t.find? space = some node) {x : Float} {n : String} (hn : node.reverse? x = some n) :
    ∃ v path, t.lookupWithin? [n] space = some (v, path) ∧ (v == x) = true := by
  obtain ⟨⟨name, c⟩, hfind, rfl⟩ := Option.map_eq_some_iff.1 hn
  have hmem := List.mem_of_find?_eq_some hfind
  have hvalue := List.find?_some hfind
  obtain ⟨v, hv, hx⟩ : ∃ v, c.value = some v ∧ (v == x) = true := by
    simpa [Option.any_eq_true] using hvalue
  have hchild : node.child? name = some c :=
    (Table.lookup_eq_some_iff_mem (ht.find? hspace).names name c).2 hmem
  have hpath : ∀ {s : EnumTree} {path : List String}, s.find? path = some node →
      s.find? (path ++ [name]) = some c := by
    intro s path hs
    induction path generalizing s with
    | nil =>
      obtain rfl := Option.some.inj hs
      change (s.child? name).bind _ = _
      rw [hchild]
      rfl
    | cons p path ih =>
      obtain ⟨d, hd, hs⟩ := Option.bind_eq_some_iff.1 hs
      exact Option.bind_eq_some_iff.2 ⟨d, hd, ih hs⟩
  have hlookup : t.lookup? (space ++ [name]) = some v := by
    rw [lookup?, hpath hspace]
    exact hv
  refine ⟨v, space ++ [name], ?_, hx⟩
  unfold lookupWithin?
  rw [List.range_succ, List.reverse_append, List.reverse_singleton, List.singleton_append,
    List.findSome?_cons, List.take_length, hlookup]
  rfl

end EnumTree

/-! ## the text of a number -/

namespace Number

/-- A positional form is a decimal. -/
theorem isDecimal_positional (d : Digits) (h : ∀ x ∈ d.digits, x < 10) :
    Lexer.IsDecimal (Bytes.ofString (positional d)) := by
  have hdigits : ∀ {ds : List Nat}, (∀ x ∈ ds, x < 10) → ∀ b ∈ Utf8.encode (ds.map digitChar),
      Lexer.isDigit (Char.ofUInt8 b) = true := by
    intro ds hds b hb
    have hascii : ∀ c ∈ ds.map digitChar, c.toNat < 0x80 ∧ Lexer.isDigit c = true := by
      intro c hc
      obtain ⟨x, hx, rfl⟩ := List.mem_map.1 hc
      have hlt := hds x hx
      clear hc hx
      revert x
      decide
    have hmem : Char.ofUInt8 b ∈ (Utf8.encode (ds.map digitChar)).map Char.ofUInt8 :=
      List.mem_map_of_mem hb
    rw [Utf8.map_encode_ascii fun c hc => (hascii c hc).1] at hmem
    exact (hascii _ hmem).2
  have hne : ∀ {ds : List Nat}, ds ≠ [] → Utf8.encode (ds.map digitChar) ≠ [] := by
    intro ds hds hnil
    have hle := Utf8.length_le_length_encode (ds.map digitChar)
    rw [hnil, List.length_map, List.length_nil, Nat.le_zero, List.length_eq_zero_iff] at hle
    exact hds hle
  rw [Bytes.ofString]
  obtain ⟨as, htext, has, ha, -⟩ | ⟨as, bs, htext, has, hbs, ha, hb, -⟩ := positional_shape d h
  · rw [htext]
    exact .whole (hne has) (hdigits ha)
  · rw [htext, Utf8.encode_append, Utf8.encode_cons]
    exact .point (hne has) (hdigits ha) (hne hbs) (hdigits hb)

theorem neg_neg_eq {x : Float} (h : isFinite x = true) : - -x = x := by
  refine eq_of_parts ?_ ?_
  · rw [isNegative_neg (isFinite_neg h), isNegative_neg h, Bool.not_not]
  · rw [parts_neg (isFinite_neg h), parts_neg h]

/-- What is written for a finite number is read as the number. -/
theorem readAs_plain {x : Float} (h : isFinite x = true) :
    ∃ raw, Parser.ReadAs (Bytes.ofString (plain x)) (.number x raw) := by
  cases hsign : isNegative x with
  | false =>
    have htext : plain x = positional (shortest (Parts.of x)) := by
      rw [plain, if_pos h, signText, hsign]
      exact String.empty_append
    rw [htext]
    exact ⟨_, Parser.readAs_decimal (isDecimal_positional _ (shortest_digits_lt _))
      (read?_positional h hsign)⟩
  | true =>
    have hread := read?_positional (isFinite_neg h) (by rw [isNegative_neg h, hsign]; rfl)
    rw [parts_neg h] at hread
    have htext : Bytes.ofString (plain x) = 45 ::
        Bytes.ofString (positional (shortest (Parts.of x))) := by
      rw [Bytes.ofString, toList_plain h, hsign]
      rfl
    have hnegative := Parser.readAs_negative (isDecimal_positional _ (shortest_digits_lt _)) hread
    rw [neg_neg_eq h] at hnegative
    rw [htext]
    exact ⟨_, hnegative⟩

/-- What is written for an infinity is no expression. -/
theorem not_readAs_infinity {x : Float} (h : isFinite x = false) (hnumber : isNotANumber x = false)
    (e : Pos → Expr) : ¬ Parser.ReadAs (Bytes.ofString (plain x)) e := by
  have hname : Lexer.IsName "Inf" := ⟨⟨⟨'I', ['n', 'f'], by simp, by decide⟩, by simp; decide⟩,
    by simp [Lexer.surfaceWord?], by simp [isKeyword, keywords]⟩
  rcases plain_of_not_isFinite h with ⟨hnan, -⟩ | ⟨-, -, htext⟩
  · rw [hnumber] at hnan
    cases hnan
  · rw [htext]
    split
    · exact Parser.not_readAs_signed (b := 45) (.inl rfl) hname e
    · exact Parser.not_readAs_signed (b := 43) (.inr rfl) hname e

end Number

/-! ## what is written -/

/-- The argument takes numbers by their names. -/
def ArgSpec.TakesConstants (a : ArgSpec) : Prop :=
  a.type = .member ∨ (a.type = .float ∨ a.type = .int) ∧ Checker.hasMembers a = true

/-- The printer of a plan that was checked. -/
abbrev Checker.printer (k : Checker) (p : Plan) : Printer := { plan := p, registry := k.registry }

variable {k : Checker} {p : Plan} {a : ArgSpec} {x y : Float} {n : String}

/-- The name that is written is that of a choice or of a constant with the value. -/
theorem memberName?_spec (henums : k.registry.enums.Ordered)
    (h : (k.printer p).memberName? a x = some n) :
    Checker.hasMembers a = true ∧ isKeyword n = false ∧
      ((∃ v, a.choices.get? n = some v ∧ (v == x) = true) ∨
        isStateField n = false ∧ a.enum ≠ "" ∧
          ∃ v path, k.registry.enums.lookupWithin? [n] (Text.splitChar '.' a.enum) =
            some (v, path) ∧ (v == x) = true) := by
  unfold Printer.memberName? at h
  dsimp only at h
  rcases Option.or_eq_some_iff.1 h with hchoice | ⟨-, hconstant⟩
  · obtain ⟨⟨name, v⟩, hfind, rfl⟩ := Option.map_eq_some_iff.1 hchoice
    have hmem := List.mem_of_find?_eq_some hfind
    have hvalue := List.find?_some hfind
    simp only [Bool.and_eq_true, Bool.not_eq_true'] at hvalue
    have hne : a.choices.isEmpty = false := by
      rw [Table.isEmpty, List.isEmpty_eq_false_iff]
      exact List.ne_nil_of_mem hmem
    exact ⟨by rw [Checker.hasMembers, hne, Bool.not_false, Bool.or_true], hvalue.2,
      .inl ⟨v, Table.mem_entries_iff.1 hmem, hvalue.1⟩⟩
  · split at hconstant
    · cases hconstant
    · rename_i henum
      obtain ⟨hreverse, hfilter⟩ := Option.filter_eq_some_iff.1 hconstant
      obtain ⟨node, hnode, hn⟩ := Option.bind_eq_some_iff.1 hreverse
      simp only [Bool.and_eq_true, Bool.not_eq_true'] at hfilter
      exact ⟨by simp [Checker.hasMembers, henum], hfilter.1,
        .inr ⟨hfilter.2, henum, EnumTree.lookupWithin?_reverse henums hnode hn⟩⟩

/-- A name that is written is read as a number, which is the one it was written for unless a choice
of that name is another. -/
theorem member?_written (henums : k.registry.enums.Ordered)
    (h : (k.printer p).memberName? a x = some n) :
    ∃ y, k.member? a [n] = some y ∧
    ((y == x) = true ↔ ∀ v, a.choices.get? n = some v → (v == x) = true) := by
  have hmember : k.member? a [n] = (a.choices.get? n).or ((k.registry.enums.lookupWithin? [n]
      (if a.enum = "" then [] else Text.splitChar '.' a.enum)).map (·.1)) := rfl
  rw [hmember]
  cases hchoice : a.choices.get? n with
  | some v => exact ⟨v, rfl, by simp⟩
  | none =>
    rcases (memberName?_spec henums h).2.2 with ⟨v, hv, -⟩ | ⟨-, henum, v, path, hv, hx⟩
    · rw [hchoice] at hv
      cases hv
    · exact ⟨v, by rw [if_neg henum, hv]; rfl, by simp [hx]⟩

/-! ## what is read -/

/-- The place of an argument in a source without variables. -/
abbrev Checker.place (k : Checker) : Surroundings := { checker := k }

/-- An argument that names a member has its number. -/
theorem argument_name {sub : LowerChain} {base : Nat} {pos : Pos} (ha : a.TakesConstants)
    (hmembers : Checker.hasMembers a = true) (hy : k.member? a [n] = some y)
    (hfield : a.type = .member ∨ isStateField n = false) :
    k.place.argument sub base a (.ident n pos) = ({}, some (.scalar y)) := by
  have hnamed : k.memberArg a (.ident n pos) = (some (.scalar y), []) := by
    unfold Checker.memberArg
    simp only [hy]
    rfl
  have hderef : k.place.vars.deref (.ident n pos) = .ident n pos := rfl
  have hnumber : isStateField n = false → k.numberArg k.place.vars a (.ident n pos) =
      (some (.scalar y), []) := by
    intro hn
    unfold Checker.numberArg
    simp only [hn, hmembers, Bool.not_false, Bool.and_self, if_true, hnamed]
  unfold Surroundings.argument
  rw [hderef]
  rcases ha with ha | ⟨ha | ha, -⟩
  · simp only [ha, hnamed]
    rfl
  · simp only [ha, hnumber (hfield.resolve_left (by simp [ha]))]
    rfl
  · simp only [ha, hnumber (hfield.resolve_left (by simp [ha]))]
    rfl

/-- The name of a field of the state is no number for an argument that may change. -/
theorem argument_field {sub : LowerChain} {base : Nat} {pos : Pos} (ha : a.TakesConstants)
    (hmember : a.type ≠ .member) (hfield : isStateField n = true) :
    k.place.argument sub base a (.ident n pos) =
      ({}, some (.dynamic ((Dynamic.ofState n).bounded a.min a.max))) := by
  have hderef : k.place.vars.deref (.ident n pos) = .ident n pos := rfl
  have hnumber : k.numberArg k.place.vars a (.ident n pos) =
      (some (.dynamic ((Dynamic.ofState n).bounded a.min a.max)), []) := by
    unfold Checker.numberArg
    simp only [hfield, Bool.not_true, Bool.false_and, Bool.false_eq_true, if_false, Checker.scalar,
      hderef, if_true]
    rfl
  unfold Surroundings.argument
  rw [hderef]
  rcases ha.resolve_left hmember with ⟨ha | ha, -⟩
  all_goals
    simp only [ha, hnumber]
    rfl

/-- A surface is no number. -/
theorem argument_surface {sub : LowerChain} {base : Nat} {o : Surface} {pos : Pos}
    (ha : a.TakesConstants) :
    (k.place.argument sub base a (.surface o pos)).2 = none := by
  have hderef : k.place.vars.deref (.surface o pos) = .surface o pos := rfl
  unfold Surroundings.argument
  rw [hderef]
  rcases ha with ha | ⟨ha | ha, -⟩
  all_goals
    simp only [ha]
    rfl

/-- A number that an argument is given: it is rounded if the argument is an integer. -/
def ArgSpec.wanted (a : ArgSpec) (y : Float) : Float := if a.type = .int then Number.round y else y

/-- A number is brought within the range of its parameter. -/
theorem argument_number {sub : LowerChain} {base : Nat} {raw : String} {pos : Pos}
    (ha : a.TakesConstants) :
    k.place.argument sub base a (.number y raw pos) =
      if a.type = .member then ({}, some (.scalar y))
      else (Emitted.notes (if (a.clamp (a.wanted y)).2
          then [{ problem := .outOfRange a.name (a.wanted y) (a.clamp (a.wanted y)).1, pos }]
            else []),
        some (.scalar (a.clamp (a.wanted y)).1)) := by
  have hderef : k.place.vars.deref (.number y raw pos) = .number y raw pos := rfl
  unfold Surroundings.argument
  rw [hderef]
  rcases ha with ha | ⟨ha | ha, -⟩
  · simp only [ha, if_true]
    rfl
  · simp only [ha, Checker.numberArg, ArgSpec.wanted]
    rfl
  · simp only [ha, Checker.numberArg, ArgSpec.wanted]
    rfl

/-! ## survival -/

/-- What is written for the number is read as the other one in the place of the argument, and
nothing is reported. -/
def Survives (k : Checker) (p : Plan) (a : ArgSpec) (x y : Float) : Prop :=
  ∀ chain, ∃ e, Parser.ReadAs (Bytes.ofString ((k.printer p).valueText chain a (.scalar x))) e ∧
    ∀ sub base pos, ∃ z, k.place.argument sub base a (e pos) = ({}, some (.scalar z)) ∧
      (z == y) = true

/-- A number is printed as the name of its member, or in brief. -/
theorem valueText_scalar (ha : a.TakesConstants) (chain : Nat → String) :
    (k.printer p).valueText chain a (.scalar x) = ((k.printer p).memberName? a x).getD
      (Number.brief x) := by
  have hnamed : (a.type = .member || a.enum ≠ "" || !a.choices.isEmpty) = true := by
    rcases ha with ha | ⟨-, hmembers⟩
    · simp [ha]
    · rw [Checker.hasMembers] at hmembers
      simpa [or_assoc] using .inr (by simpa using hmembers)
  unfold Printer.valueText
  dsimp only
  rw [if_pos hnamed]

theorem clamp_of_inside {w : Float} (h : (a.clamp w).2 = false) : (a.clamp w).1 = w := by
  unfold ArgSpec.clamp ArgSpec.clamp.below at h ⊢
  repeat' split at h
  all_goals simp_all

/-- A number that is written by its digits is read as it is written, unless the argument rounds it
or its range moves it. -/
theorem survives_digits (ha : a.TakesConstants) (hname : (k.printer p).memberName? a x = none) :
    Survives k p a x (Number.round6 x) ↔ Number.isFinite (Number.round6 x) = true ∧
      (a.type = .member ∨ (a.clamp (a.wanted (Number.round6 x))).2 = false ∧
        (a.wanted (Number.round6 x) == Number.round6 x) = true) := by
  have htext : ∀ chain, (k.printer p).valueText chain a (.scalar x) =
      Number.plain (Number.round6 x) := fun chain => by
    rw [valueText_scalar ha, hname]
    rfl
  unfold Survives
  generalize Number.round6 x = r at htext ⊢
  simp only [htext]
  constructor
  · intro h
    obtain ⟨e, hread, harg⟩ := h fun _ => ""
    obtain ⟨z, hz, hsame⟩ := harg (fun _ _ => ({}, none)) 0 {}
    have hfinite : Number.isFinite r = true := by
      rw [← Bool.not_eq_false]
      intro hr
      cases hnan : Number.isNotANumber r with
      | true => simp [Number.not_beq_of_isNotANumber hnan] at hsame
      | false => exact Number.not_readAs_infinity hr hnan e hread
    obtain ⟨raw, hplain⟩ := Number.readAs_plain hfinite
    rw [hread.unique hplain, argument_number ha] at hz
    refine ⟨hfinite, ?_⟩
    by_cases hmember : a.type = .member
    · exact .inl hmember
    · rw [if_neg hmember] at hz
      obtain ⟨hnotes, hvalue⟩ := Prod.mk.inj hz
      have hinside : (a.clamp (a.wanted r)).2 = false := by
        cases hclamp : (a.clamp (a.wanted r)).2 with
        | false => rfl
        | true =>
          rw [hclamp] at hnotes
          cases congrArg Emitted.problems hnotes
      obtain rfl := Value.scalar.inj (Option.some.inj hvalue)
      rw [clamp_of_inside hinside] at hsame
      exact .inr ⟨hinside, hsame⟩
  · rintro ⟨hfinite, hkept⟩ chain
    obtain ⟨raw, hplain⟩ := Number.readAs_plain hfinite
    refine ⟨_, hplain, fun sub base pos => ?_⟩
    rw [argument_number ha]
    by_cases hmember : a.type = .member
    · exact ⟨r, if_pos hmember, Number.beq_self hfinite⟩
    · obtain ⟨hinside, hsame⟩ := hkept.resolve_left hmember
      rw [if_neg hmember, hinside, clamp_of_inside hinside]
      exact ⟨_, rfl, hsame⟩

/-- A word that is written is read as the number, unless it is read as a surface, as a field of the
state or as a choice that is another number. -/
theorem survives_word (henums : k.registry.enums.Ordered) (ha : a.TakesConstants)
    (hname : (k.printer p).memberName? a x = some n) (hn : Lexer.IsWord n) :
    Survives k p a x x ↔ Lexer.surfaceWord? n.toList = none ∧
    (a.type = .member ∨ isStateField n = false) ∧
      ∀ v, a.choices.get? n = some v → (v == x) = true := by
  have htext : ∀ chain, (k.printer p).valueText chain a (.scalar x) = n := fun chain => by
    rw [valueText_scalar ha, hname]
    rfl
  obtain ⟨hmembers, hkeyword, -⟩ := memberName?_spec henums hname
  obtain ⟨y, hy, hsame⟩ := member?_written henums hname
  unfold Survives
  simp only [htext]
  rw [← hsame]
  constructor
  · intro h
    obtain ⟨e, hread, harg⟩ := h fun _ => ""
    obtain ⟨z, hz, hzx⟩ := harg (fun _ _ => ({}, none)) 0 {}
    have hsurface : Lexer.surfaceWord? n.toList = none := by
      rcases hword : Lexer.surfaceWord? n.toList with _ | ⟨letter, index, _ | _⟩
      · rfl
      · exact absurd hread (Parser.not_readAs_badSurface hn hword e)
      · rw [hread.unique (Parser.readAs_surface hn hword)] at hz
        cases (argument_surface ha).symm.trans (congrArg Prod.snd hz)
    rw [hread.unique (Parser.readAs_name ⟨hn, hsurface, hkeyword⟩)] at hz
    have hfield : a.type = .member ∨ isStateField n = false := by
      rw [or_iff_not_imp_left, ← Bool.not_eq_true]
      intro hmember hfield
      rw [argument_field ha hmember hfield] at hz
      cases hz
    rw [argument_name ha hmembers hy hfield] at hz
    obtain rfl := Value.scalar.inj (Option.some.inj (Prod.mk.inj hz).2)
    exact ⟨hsurface, hfield, hzx⟩
  · rintro ⟨hsurface, hfield, hyx⟩ chain
    exact ⟨_, Parser.readAs_name ⟨hn, hsurface, hkeyword⟩,
      fun sub base pos => ⟨y, argument_name ha hmembers hy hfield, hyx⟩⟩

/-- Which numbers survive being written and read, of an argument that takes numbers by their names.

A number with a name that is written does, unless the name is read as a surface, as a field of the
state that changes from frame to frame, or as a choice that is another number.  A number without one
does up to six places, unless it is infinite or no number, or the argument rounds it or its range
moves it.  The names that are written are words here; any other name is written as it is and read
for what it looks like (`tone_soft_lost`). -/
theorem survives_iff (henums : k.registry.enums.Ordered) (ha : a.TakesConstants) (p : Plan)
    (x : Float) (hnames : ∀ n, (k.printer p).memberName? a x = some n → Lexer.IsWord n) :
    match (k.printer p).memberName? a x with
    | some n =>
        Survives k p a x x ↔ Lexer.surfaceWord? n.toList = none ∧
          (a.type = .member ∨ isStateField n = false) ∧
        ∀ v, a.choices.get? n = some v → (v == x) = true
    | none => Survives k p a x (Number.round6 x) ↔ Number.isFinite (Number.round6 x) = true ∧
        (a.type = .member ∨ (a.clamp (a.wanted (Number.round6 x))).2 = false ∧
          (a.wanted (Number.round6 x) == Number.round6 x) = true) := by
  cases hname : (k.printer p).memberName? a x with
  | none => exact survives_digits ha hname
  | some n => exact survives_word henums ha hname (hnames n hname)

/-- A number whose only choice has the name of a field of the state. -/
def pace : ArgSpec := { name := "pace", choices := ⟨[("time", 3)], List.pairwise_singleton _ _⟩ }

/-- The choice that is written for three is read as the time. -/
theorem pace_time_lost : ({} : Checker).registry.enums.Ordered ∧ pace.TakesConstants ∧
    (∀ n, (({} : Checker).printer {}).memberName? pace 3 = some n → Lexer.IsWord n) ∧
      ¬ Survives {} {} pace 3 3 := by
  have henums : ({} : Checker).registry.enums.Ordered := .empty
  have htakes : pace.TakesConstants := .inr ⟨.inl rfl, rfl⟩
  have hthree : ((3 : Float) == 3) = true := Number.beq_self (by decide +kernel)
  have hname : (({} : Checker).printer {}).memberName? pace 3 = some "time" := by
    simp [Printer.memberName?, pace, hthree, isKeyword, keywords]
  have hword : Lexer.IsWord "time" := ⟨⟨'t', ['i', 'm', 'e'], by simp, by decide⟩, by simp; decide⟩
  have hnames : ∀ n, (({} : Checker).printer {}).memberName? pace 3 = some n → Lexer.IsWord n := by
    intro n hn
    obtain rfl := Option.some.inj (hname.symm.trans hn)
    exact hword
  refine ⟨henums, htakes, hnames, fun h => ?_⟩
  have hiff := survives_iff henums htakes {} 3 hnames
  rw [hname] at hiff
  obtain ⟨-, hmember | hfield, -⟩ := hiff.1 h
  · cases hmember
  · exact absurd hfield (by simp [isStateField, stateFields])

/-- A number whose only choice has a name of two words. -/
def tone : ArgSpec :=
  { name := "tone", choices := ⟨[("soft light", 3)], List.pairwise_singleton _ _⟩ }

/-- A name that is no word is written all the same.  It is read as what it looks like, which may
be a number or a path; two words are no argument, so that the number is lost. -/
theorem tone_soft_lost :
    tone.TakesConstants ∧ (({} : Checker).printer {}).memberName? tone 3 = some "soft light" ∧
    ¬ Survives {} {} tone 3 3 := by
  have htakes : tone.TakesConstants := .inr ⟨.inl rfl, rfl⟩
  have hthree : ((3 : Float) == 3) = true := Number.beq_self (by decide +kernel)
  have hname : (({} : Checker).printer {}).memberName? tone 3 = some "soft light" := by
    simp [Printer.memberName?, tone, hthree, isKeyword, keywords]
  refine ⟨htakes, hname, fun h => ?_⟩
  obtain ⟨e, hread, -⟩ := h fun _ => ""
  rw [valueText_scalar htakes, hname, Option.getD_some] at hread
  obtain ⟨hends, hclosing⟩ :=
    Parser.tokensFrom_closing (Pos.past .start (Bytes.ofString "soft light"))
  obtain ⟨ts, hts, hmakes⟩ := hread .start [41] _ hends hclosing
  have hmakes := hmakes Parser.outermost rfl Nat.one_pos
  let soft : List Token := [⟨.identifier, Bytes.ofString "soft", ⟨1, 1⟩⟩]
  let light : List Token :=
    [⟨.identifier, Bytes.ofString "light", ⟨1, 6⟩⟩, ⟨.rparen, [41], ⟨1, 11⟩⟩,
    ⟨.endOfInput, [], ⟨1, 12⟩⟩]
  have hscan : Token.scan (Bytes.ofString "soft light" ++ [41]) = .ok (soft ++ light) := by
    decide +kernel
  -- the first word is an argument, and the second one is left over
  have hsoft : Parser.expr Parser.outermost (soft ++ light) =
    .ok ⟨.ident "soft" ⟨1, 1⟩, light, by decide⟩ := by cbv
  rw [← Except.ok.inj (hscan.symm.trans hts)] at hmakes
  obtain ⟨x, hx, -, hrest⟩ := hmakes
  obtain rfl := Except.ok.inj (hsoft.symm.trans hx)
  exact absurd (congrArg List.length hrest) (by decide)

end EffectChain
