import EffectChain.Proofs.Plan.Relowered
import EffectChain.Proofs.Plan.Rounds
import EffectChain.Proofs.Program.Blocks

/-!
# EffectChain.Proofs.Plan.Wrapping

The blocks around steps, written and read again.

Statements that come to steps come to them once more, under further conditions and in loops
(`Stmt.Relays`).  The headers of a step open blocks that make its conditions and its loops of
the lines between them (`Step.Retold.encloses`), and steps with the same headers stand under
the same (`Step.Retold.of_headers`), so that steps that follow each other can share their
blocks.
-/

namespace EffectChain

open EffectChain.Lexer Emitted Surroundings
open EffectChain.Parser (IsBlock IsStmt Denotes IsEnd)

variable {k : Checker} {p : Plan} {base : Nat} {gs : List Dynamic} {r : Repeat}
    {steps more : List Step}
  {sts sts' : List Stmt}

/-! ## statements lowered once more -/

/-- Lowering goes on behind statements that do not jump. -/
theorem Surroundings.block_append_of_onward (sts' : List Stmt) (s : Surroundings) (base : Nat)
    (sts : List Stmt) (h : (s.block base sts).flow = .onward) :
    s.block base (sts ++ sts') =
      let r := s.block base sts
      let more := block { s with vars := r.vars } (base + r.out.steps.length) sts'
      { more with out := r.out ++ more.out } := by
  induction sts generalizing s base with
  | nil =>
    rw [List.nil_append, block]
    rfl
  | cons st rest ih =>
    rw [List.cons_append, block]
    rw [block] at h ⊢
    by_cases hst : (s.stmt base st).flow = .onward
    · simp only [hst, if_true] at h ⊢
      rw [ih _ _ h]
      simp only [steps_append, List.length_append, Emitted.append_assoc, Nat.add_assoc]
    · simp only [hst, if_false] at h

/-- The statements are lowered to the steps once more, under further conditions and in loops. -/
def Stmt.Relays (k : Checker) (base : Nat) (gs : List Dynamic) (r : Repeat) (steps : List Step)
    (sts : List Stmt) : Prop :=
  ∀ s : Surroundings, s.checker = k → s.vars = {} → ∃ steps',
    List.Forall₂ (Step.Again (s.guards ++ gs) r) steps steps' ∧
    s.block base sts = { out := { steps := steps' } }

namespace Stmt.Relays

theorem nil : Relays k base gs r [] [] := by
  intro s _ hvars
  refine ⟨[], .nil, ?_⟩
  rw [block, hvars]

/-- One statement. -/
theorem single {st : Stmt} (h : ∀ s : Surroundings, s.checker = k → s.vars = {} →
    ∃ steps', List.Forall₂ (Step.Again (s.guards ++ gs) r) steps steps' ∧
    s.stmt base st = { out := { steps := steps' } }) :
    Relays k base gs r steps [st] := by
  intro s hs hvars
  obtain ⟨steps', hagain, hst⟩ := h s hs hvars
  refine ⟨steps', hagain, ?_⟩
  rw [block, hst]
  dsimp only
  rw [if_pos rfl, block]
  exact congrArg (fun out => ({ out } : Lowered)) (append_notes_nil _)

theorem append (h : Relays k base gs r steps sts)
    (h' : Relays k (base + steps.length) gs r more sts') :
    Relays k base gs r (steps ++ more) (sts ++ sts') := by
  intro s hs hvars
  obtain ⟨steps', hagain, hfirst⟩ := h s hs hvars
  obtain ⟨more', hmore, hsecond⟩ := h' s hs hvars
  refine ⟨steps' ++ more', List.rel_append hagain hmore, ?_⟩
  rw [block_append_of_onward sts' s base sts (by rw [hfirst]), hfirst]
  dsimp only
  have hsame : ({ s with vars := {} } : Surroundings) = s := by rw [← hvars]
  rw [← hagain.length_eq, hsame, hsecond]
  rfl

/-- A chain of the calls is lowered to its steps once more. -/
theorem run {op : String} {init : List Step} {st : Step} {cs : List Call}
    (h : Regrows k op base init st cs) (hinit : ∀ st' ∈ init, st'.temp ≠ st.temp)
    (hout : ∀ o ∈ st.out, o.Writable)
    (hwritten : st.out = none → k.registry.ops.isStarter op = false) (pos pos' pos'' : Pos) :
    Relays k base [] {} (init ++ [st])
      [.run { calls := cs, out := st.out.map (.surface · pos), pos := pos' } pos''] := by
  refine single fun s hs hvars => ?_
  obtain ⟨ch, hch⟩ : ∃ ch : Chain,
    { calls := cs, out := st.out.map (.surface · pos), pos := pos' } = ch := ⟨_, rfl⟩
  have hsize : ∀ c ∈ cs, ∀ kw ∈ c.kwargs, kw.value.size ≤ depthBound s.vars ch := by
    intro c hc kw hkw
    have hle := Expr.size_le_sizeCalls hc hkw
    rw [hvars, ← hch]
    change _ ≤ 1 + (1 + Expr.sizeCalls cs + _)
    omega
  obtain ⟨steps', hagain, hlowered⟩ := h.lowers hinit hout hs hvars hsize (.inr hwritten) pos pos'
  refine ⟨steps', by rwa [List.append_nil], ?_⟩
  rw [hch] at hlowered ⊢
  rw [stmt, chain, hlowered, hvars]

/-- A condition around statements. -/
theorem choose {d : Dynamic} {e : Expr} (he : e.Varies k d) (hbounds : d.min = none ∧ d.max = none)
    (h : Relays k base gs r steps sts) (pos pos' : Pos) :
    Relays k base (d :: gs) r steps [.choose [⟨e, sts, pos⟩] none pos'] := by
  refine single fun s hs hvars => ?_
  have hd : d.bounded none none = d := by
    obtain ⟨signal, min, max, negated⟩ := d
    obtain ⟨rfl, rfl⟩ := hbounds
    rfl
  have hscalar : s.checker.scalar s.vars e none none "condition" = (some (.dynamic d), []) := by
    rw [hs, hvars, he.scalar, hd]
  obtain ⟨steps', hagain, hblock⟩ := h { s with guards := s.guards ++ [] ++ [d] } hs hvars
  refine ⟨steps', by simpa using hagain, ?_⟩
  have hbody : ({ s with guards := s.guards ++ [] ++ [d] } : Surroundings).block
      (base + (({} : Emitted) ++ notes []).steps.length) sts = { out := { steps := steps' } } :=
        hblock
  rw [stmt, branches, hscalar]
  dsimp only
  rw [hbody, branches]
  rfl

/-- A loop around statements, whose count and factor are known. -/
theorem repeated {e : Expr} {n : Nat} {f : Option Dynamic} {c : Int} {g : Option Dynamic}
    (hcount : ∀ (s : Surroundings) pos, s.checker = k → s.vars = {} →
      s.loopCount (some e) pos = (some (n + 1, f), []))
    (hproduct : Repeat.times c (n + 1 : Nat) = (r.count, false))
    (hfactor : f = none ∧ r.factor = g ∨ g = none ∧ r.factor = f)
    (h : Relays k base gs ⟨c, g⟩ steps sts) (pos : Pos) :
    Relays k base gs r steps [.repeated (some e) sts pos] := by
  refine single fun s hs hvars => ?_
  obtain ⟨steps', hagain, hblock⟩ := h { s with loops := s.loops + 1 } hs hvars
  have hstep : ∀ st : Step, st.repetition = ⟨c, g⟩ →
      Surroundings.repeated (n + 1) f st = ({ st with repetition := r }, false, false) := by
    intro st hst
    obtain ⟨count, factor⟩ := r
    unfold Surroundings.repeated
    rw [hst]
    dsimp only at hproduct hfactor ⊢
    rw [hproduct]
    rcases hfactor with ⟨rfl, rfl⟩ | ⟨rfl, rfl⟩
    · rfl
    · cases factor <;> rfl
  have hall : ∀ {xs ys : List Step}, List.Forall₂ (Step.Again (s.guards ++ gs) ⟨c, g⟩) xs ys →
      ys.map (Surroundings.repeated (n + 1) f) =
        ys.map (fun st => ({ st with repetition := r }, false, false)) ∧
        List.Forall₂ (Step.Again (s.guards ++ gs) r) xs
            (ys.map fun st => { st with repetition := r }) := by
    intro xs ys h
    induction h with
    | nil => exact ⟨rfl, .nil⟩
    | cons hst _ ih =>
      obtain ⟨ns, pos, rfl⟩ := hst
      exact ⟨by rw [List.map_cons, List.map_cons, hstep _ rfl, ih.1], .cons ⟨ns, pos, rfl⟩ ih.2⟩
  obtain ⟨hsame, hresult⟩ := hall hagain
  refine ⟨_, hresult, ?_⟩
  have hbody : repeatBody (n + 1) f pos { steps := steps' } =
      { steps := steps'.map fun st => { st with repetition := r } } := by
    have hfirst : (steps'.map fun st => (({ st with repetition := r } : Step), false, false)).map
        (·.1) =
        steps'.map fun st => { st with repetition := r } := by
      rw [List.map_map]
      rfl
    have hnested : (steps'.map fun st =>
        (({ st with repetition := r } : Step), false, false)).filter (·.2.2) = [] := by
      simp [List.filter_eq_nil_iff]
    have hcapped : (steps'.map fun st => (({ st with repetition := r } : Step), false, false)).any
        (·.2.1) = false := by
      simp [List.any_eq_false]
    unfold repeatBody
    dsimp only
    rw [hsame, hfirst, hnested, hcapped]
    exact (append_notes_nil _).trans (append_notes_nil _)
  rw [stmt, hcount s pos hs hvars]
  dsimp only
  rw [hblock]
  change ({ out := notes [] ++ repeatBody (n + 1) f pos { steps := steps' } } : Lowered) = _
  rw [hbody]
  rfl

end Stmt.Relays

/-- A whole number of rounds is read as it is. -/
theorem Surroundings.loopCount_number {s : Surroundings} (hvars : s.vars = {}) {n : Nat}
    (hn : 0 < n) (hle : n ≤ maxRepeat) (raw : String) (pos pos' : Pos) :
    s.loopCount (some (.number (Number.ofInt n) raw pos)) pos' = (some (n, none), []) := by
  obtain ⟨hfinite, hsign, hvalue⟩ := Number.ofInt_natCast (n := n) (hle.trans (by decide))
  have hnumber := Number.isNotANumber_of_isFinite hfinite
  have hcount : roundedCount (Number.ofInt n) = n := by
    rw [roundedCount_eq, hnumber, if_neg (by decide), Number.value, hsign, if_neg (by decide),
      hvalue, Nat.floor_eq_iff (by positivity)]
    constructor <;> norm_num
  have hscalar : s.checker.scalar s.vars (.number (Number.ofInt n) raw pos) none none "loop count" =
      (some (.scalar (Number.ofInt n)), []) := by
    rw [hvars]
    rfl
  have hlong := maxRepeat_lt_round_iff hnumber
  unfold loopCount
  dsimp only
  rw [hscalar]
  dsimp only
  unfold roundedCount at hcount hlong
  split at hcount
  · omega
  · next hpos => 
    rw [if_neg hpos] at hlong ⊢
    rw [if_neg (by rw [gt_iff_lt, hlong, hcount]; omega), hcount]

/-- A changing count is the factor of the loop. -/
theorem Surroundings.loopCount_varies {s : Surroundings} (hs : s.checker = k) (hvars : s.vars = {})
    {d : Dynamic} {e : Expr} (he : e.Varies k d) (hbounds : d.min = none ∧ d.max = none)
    (pos : Pos) :
    s.loopCount (some e) pos = (some (1, some d), []) := by
  have hd : d.bounded none none = d := by
    obtain ⟨signal, min, max, negated⟩ := d
    obtain ⟨rfl, rfl⟩ := hbounds
    rfl
  have hscalar : s.checker.scalar s.vars e none none "loop count" = (some (.dynamic d), []) := by
    rw [hs, hvars, he.scalar, hd]
  unfold loopCount
  dsimp only
  rw [hscalar]

/-! ## the blocks around steps -/

namespace Dynamic

/-- What a condition or a count is read as. -/
def reread (d : Dynamic) : Dynamic := d.reread?.getD d

/-- A condition or a count that is read again as a value of the same truth and with the same text.
-/
structure Retold (d : Dynamic) : Prop where
  bare : d.Bare
  short : d.negated = false → d.signal.Short
  negated : d.negated = true → (closure? d.formula).isSome

namespace Retold

variable {d : Dynamic}

theorem reread?_eq (h : d.Retold) : d.reread? = some d.reread := by
  have hsome : d.reread?.isSome := by
    unfold reread?
    split
    · exact h.negated ‹_›
    · rfl
  unfold reread
  obtain ⟨d', hd'⟩ := Option.isSome_iff_exists.1 hsome
  rw [hd', Option.getD_some]

/-- What is read has no bounds, is not negated and has the text of what was written. -/
theorem reread_eq (h : d.Retold) :
    d.reread.signal.Sound ∧ d.reread.min = none ∧ d.reread.max = none ∧
    d.reread.negated = false ∧ d.reread.sourceText = d.sourceText ∧ d.reread.signal.Short ∧
    (d.negated = false → d.reread = d) := by
  have hread := h.reread?_eq
  generalize d.reread = d' at hread ⊢
  unfold reread? at hread
  cases hn : d.negated with
  | true =>
    rw [hn, if_pos rfl] at hread
    obtain ⟨f, hf, rfl⟩ := Option.map_eq_some_iff.1 hread
    refine ⟨hf, rfl, rfl, rfl, ?_, trivial, nofun⟩
    obtain ⟨signal, min, max, negated⟩ := d
    obtain rfl : negated = true := hn
    cases signal <;> rfl
  | false =>
    rw [hn, if_neg (by decide)] at hread
    obtain rfl := Option.some.inj hread
    have hshort := h.short hn
    obtain ⟨hsound, -, hmin, hmax⟩ := h.bare
    obtain ⟨signal, min, max, negated⟩ := d
    obtain rfl : negated = false := hn
    obtain rfl : min = none := hmin
    obtain rfl : max = none := hmax
    exact ⟨hsound, rfl, rfl, rfl, rfl, hshort, fun _ => rfl⟩

/-- The text of a condition or a count. -/
theorem phrase (k : Checker) (h : d.Retold) {search : List String} :
    Phrase EndsValue (d.sourceText ++ " ") (Denotes search (Expr.Varies k d.reread)) :=
  phrase_sourceText k h.bare.sound h.bare.closed h.short h.reread?_eq (.inr rfl)

end Retold

end Dynamic

/-- What the step stands under can be read again. -/
structure Step.Retold (st : Step) : Prop where
  framed : st.Framed
  guards : ∀ g ∈ st.guards, g.Retold
  factor : ∀ d, st.repetition.factor = some d → d.Retold

/-- The text opens a block that makes statements of those in it. -/
def Wraps (search : List String) (h : String) (P P' : List Stmt → Prop) : Prop :=
  ∀ inner, Phrase (fun _ => True) inner (IsBlock search P) →
    Phrase (fun _ => True) (h ++ " \x7b\n" ++ inner ++ "\x7d\n") (IsBlock search P')

/-- The headers open blocks that make statements of the lines between them. -/
def Encloses (search : List String) (hs : List String) (P P' : List Stmt → Prop) : Prop :=
  ∀ lines, Phrase (fun _ => True) (String.join lines) (IsBlock search P) →
    Phrase (fun _ => True) (String.join (Printer.openers hs ++ lines ++ Printer.closers hs.length))
      (IsBlock search P')

theorem Lexer.Phrase.indent {ends : Bytes → Prop} (n : Nat) :
    Phrase ends (Printer.indent n) (· = []) := by
  induction n with
  | zero => exact Phrase.nil
  | succ n ih =>
    have hspace : Phrase (fun _ => True) " " (· = []) := Phrase.space
    have hspaces : Phrase (fun _ => True) "  " (· = []) :=
      hspace.append_gap hspace fun _ _ => trivial
    have htext : Printer.indent (n + 1) = "  " ++ Printer.indent n := by
      rw [Printer.indent, List.replicate_succ, String.join_cons]
      rfl
    rw [htext]
    exact hspaces.gap_append ih

namespace Encloses

variable {search : List String} {P P' P'' : List Stmt → Prop} {hs : List String}

theorem nil : Encloses search [] P P := by
  intro lines h
  simpa [Printer.openers, Printer.closers] using h

/-- One more block, inside of the others. -/
theorem inner (h : Encloses search hs P' P'') {header : String}
    (hheader : Wraps search header P P') :
    Encloses search (hs ++ [header]) P P'' := by
  intro lines hlines
  have hopeners : Printer.openers (hs ++ [header]) =
      Printer.openers hs ++ [Printer.indent hs.length ++ header ++ " \x7b\n"] := by
    simp [Printer.openers, List.zipIdx_append]
  have hclosers : Printer.closers (hs ++ [header]).length =
      (Printer.indent hs.length ++ "\x7d\n") :: Printer.closers hs.length := by
    simp [Printer.closers, List.range_succ]
  have hblock :=
    h ([Printer.indent hs.length ++ header ++ " \x7b\n"] ++ lines ++
      [Printer.indent hs.length ++ "\x7d\n"]) ?_
  · rw [hopeners, hclosers]
    simpa using hblock
  · have hindented : Phrase (fun _ => True) (String.join lines ++ Printer.indent hs.length)
        (IsBlock search P) :=
      hlines.append_gap (Phrase.indent _) fun _ _ => trivial
    have hwrapped := (Phrase.indent hs.length).gap_append (hheader _ hindented)
    have htext : String.join ([Printer.indent hs.length ++ header ++ " \x7b\n"] ++ lines ++
        [Printer.indent hs.length ++ "\x7d\n"]) =
        Printer.indent hs.length ++
            (header ++ " \x7b\n" ++ (String.join lines ++ Printer.indent hs.length) ++
                "\x7d\n") := by
      simp [String.append_assoc]
    rw [htext]
    exact hwrapped

end Encloses

section

variable {search : List String}

theorem wraps_choose {d : Dynamic} (h : d.Retold) :
    Wraps search ("if " ++ d.sourceText) (Stmt.Relays k base gs r steps)
    (Stmt.Relays k base (d.reread :: gs) r steps) := by
  obtain ⟨-, hmin, hmax, -⟩ := h.reread_eq
  intro inner hinner
  refine (Parser.phrase_choose endsValue_brace (h.phrase k) hinner).mono (fun _ => id) fun ts hts =>
    hts.isBlock.mono ?_
  rintro _ ⟨_, rfl, e, body, pos, pos', he, hbody, rfl⟩
  exact hbody.choose he ⟨hmin, hmax⟩ pos pos'

theorem wraps_factor {d : Dynamic} (h : d.Retold) (hnegated : d.negated = false) :
    Wraps search ("loop " ++ d.sourceText)
    (Stmt.Relays k base gs {} steps) (Stmt.Relays k base gs ⟨1, some d⟩ steps) := by
  obtain ⟨-, hmin, hmax, -, -, -, hsame⟩ := h.reread_eq
  intro inner hinner
  refine (Parser.phrase_repeated endsValue_brace (h.phrase k) hinner).mono (fun _ => id)
    fun ts hts => hts.isBlock.mono ?_
  rintro _ ⟨_, rfl, e, body, pos, he, hbody, rfl⟩
  rw [hsame hnegated] at he hmin hmax
  exact hbody.repeated (fun s pos hs hvars => loopCount_varies hs hvars he ⟨hmin, hmax⟩ pos)
    (show Repeat.times 1 1 = (1, false) by decide) (.inr ⟨rfl, rfl⟩) pos

theorem wraps_count {n : Nat} (hn : 0 < n) (hle : n ≤ maxRepeat) (f : Option Dynamic) :
    Wraps search ("loop " ++ Number.plain (Number.ofInt n)) (Stmt.Relays k base gs ⟨1, f⟩ steps)
      (Stmt.Relays k base gs ⟨n, f⟩ steps) := by
  obtain ⟨hfinite, -, -⟩ := Number.ofInt_natCast (n := n) (hle.trans (by decide))
  obtain ⟨n, rfl⟩ := Nat.exists_eq_add_one_of_ne_zero hn.ne'
  have hcount : Phrase (fun _ => True) (Number.plain (Number.ofInt (n + 1 : Nat)) ++ " ")
      (Denotes search _) :=
    ((Number.phrase_plain hfinite).mono (fun _ => id) fun ts hts => hts.2).append_gap Phrase.space
        fun after _ b hb => by
      obtain rfl := Option.some.inj hb
      decide
  intro inner hinner
  refine (Parser.phrase_repeated (fun _ => trivial) hcount hinner).mono (fun _ => id) fun ts hts =>
    hts.isBlock.mono ?_
  rintro _ ⟨_, rfl, _, body, pos, ⟨raw, pos', rfl⟩, hbody, rfl⟩
  refine hbody.repeated (fun s pos hs hvars => loopCount_number hvars hn hle raw pos' pos) ?_
    (.inl ⟨rfl, rfl⟩) pos
  have hcount : (0 : Int) < (n + 1 : Nat) := by omega
  have hcapped := Repeat.times_capped_iff Int.one_pos hcount
  rw [Int.one_mul, Nat.cast_lt, ← not_le, iff_false_right (not_not.2 hle), Bool.not_eq_true]
    at hcapped
  refine Prod.ext ?_ hcapped
  rw [Repeat.times_eq_min Int.one_pos, Int.one_mul]
  exact min_eq_left (by exact_mod_cast hle)

/-- The blocks around a step make its conditions and its loops. -/
theorem Step.Retold.encloses {st : Step} (h : st.Retold) : Encloses search (Printer.headers st)
    (Stmt.Relays k base [] {} steps)
    (Stmt.Relays k base (st.guards.map Dynamic.reread) st.repetition steps) := by
  -- the conditions, around those that are further inside
  have hguards : ∀ (r : Repeat) (gs : List Dynamic), (∀ g ∈ gs, g.Retold) → ∀ more : List Dynamic,
      Encloses search (gs.map fun g => "if " ++ g.sourceText) (Stmt.Relays k base more r steps)
        (Stmt.Relays k base (gs.map Dynamic.reread ++ more) r steps) := by
    intro r gs
    induction gs using List.reverseRecOn with
    | nil => exact fun _ _ => .nil
    | append_singleton gs g ih =>
      intro hgs more
      obtain ⟨hgs, hg⟩ := List.forall_mem_append.1 hgs
      have houter := ih hgs (g.reread :: more)
      rw [List.map_append, List.map_append, List.append_assoc]
      exact houter.inner (wraps_choose (hg g (by simp)))
  have hconditions := hguards st.repetition st.guards h.guards []
  rw [List.append_nil] at hconditions
  obtain ⟨hbare, hpos, hle, hfactor⟩ := h.framed
  unfold Printer.headers
  by_cases honce : st.repetition.isOnce = true
  · rw [if_pos honce, List.append_nil]
    rw [(Step.isOnce_iff hpos).1 honce] at hconditions ⊢
    exact hconditions
  · rw [if_neg honce]
    have hfactors := h.factor
    generalize st.repetition = r at hconditions hpos hle hfactor honce hfactors ⊢
    obtain ⟨count, factor⟩ := r
    obtain ⟨n, rfl⟩ := Int.eq_ofNat_of_zero_le hpos.le
    have hn : 0 < n := Int.natCast_pos.1 hpos
    have hnle : n ≤ maxRepeat := Int.ofNat_le.1 hle
    cases factor with
    | none => exact hconditions.inner (wraps_count hn hnle none)
    | some d =>
      have hd : Wraps search ("loop " ++ d.sourceText) (Stmt.Relays k base [] {} steps)
          (Stmt.Relays k base [] ⟨1, some d⟩ steps) :=
            wraps_factor (hfactors d rfl) (hfactor d rfl).2
      dsimp only
      split
      · have hcounted := (hconditions.inner (wraps_count hn hnle (some d))).inner hd
        rwa [List.append_assoc] at hcounted
      · next hone =>
        obtain rfl : n = 1 := by
          have : ¬ (1 : Int) < n := hone
          omega
        exact hconditions.inner hd

end

/-! ### what is told by the headers -/

/-- Texts are told apart by what stands before the first place of a character. -/
theorem eq_of_append_cons {α : Type} {c : α} {xs ys as bs : List α} (hx : c ∉ xs) (hy : c ∉ ys)
    (h : xs ++ c :: as = ys ++ c :: bs) : xs = ys ∧ as = bs := by
  induction xs generalizing ys with
  | nil =>
    cases ys with
    | nil => exact ⟨rfl, (List.cons.inj h).2⟩
    | cons y ys => exact absurd (List.mem_cons.2 (.inl (List.cons.inj h).1)) hy
  | cons x xs ih =>
    cases ys with
    | nil => exact absurd (List.mem_cons.2 (.inl (List.cons.inj h).1.symm)) hx
    | cons y ys =>
      obtain ⟨hxy, hrest⟩ := List.cons.inj h
      obtain ⟨hsame, hbehind⟩ :=
        ih (fun hmem => hx (List.mem_cons_of_mem _ hmem))
          (fun hmem => hy (List.mem_cons_of_mem _ hmem)) hrest
      exact ⟨by rw [hxy, hsame], hbehind⟩

theorem Number.notMem_plain {x : Float} (hx : isFinite x = true) {c : Char}
    (hc : c.isDigit = false ∧ c ≠ '.' ∧ c ≠ '-') :
    c ∉ (plain x).toList := by
  intro hmem
  rw [toList_plain hx] at hmem
  rcases List.mem_append.1 hmem with h | h
  · split at h
    · exact hc.2.2 (List.mem_singleton.1 h)
    · cases h
  · rcases positional_chars (shortest_digits_lt _) h with h | h
    · rw [hc.1] at h
      cases h
    · exact hc.2.1 h

/-- The numbers of an oscillator are told by its text if they have six places at most. -/
theorem Signal.eq_of_oscillator_text {o o' : Oscillator} (hshort : (Signal.oscillator o).Short)
    (hshort' : (Signal.oscillator o').Short) (hwave : o.wave ∈ Wave.all)
    (hwave' : o'.wave ∈ Wave.all) (h : (Signal.oscillator o).text = (Signal.oscillator o').text) :
    (Signal.oscillator o).hidden = (Signal.oscillator o').hidden := by
  have htext : ∀ o : Oscillator, (Signal.oscillator o).Short → (Signal.oscillator o).text.toList =
      o.wave.name.toList ++ '(' ::
        ("min: ".toList ++ ((Number.plain o.min).toList ++ ',' :: (" max: ".toList ++
        ((Number.plain o.max).toList ++ ',' ::
          (" speed: ".toList ++ ((Number.plain o.speed).toList ++ ',' ::
          (" offset: ".toList ++ ((Number.plain o.offset).toList ++ ')' :: [])))))))) := by
    intro o ho
    have hbrief : ∀ x ∈ [o.min, o.max, o.speed, o.offset], Number.brief x = Number.plain x :=
      fun x hx => (ho x hx).brief
    simp only [List.forall_mem_cons] at hbrief
    obtain ⟨hmin, hmax, hspeed, hoffset, -⟩ := hbrief
    simp only [Signal.text, hmin, hmax, hspeed, hoffset, String.toList_append, List.append_assoc]
    rfl
  have hparen : ∀ {w : Wave}, w ∈ Wave.all → '(' ∉ w.name.toList := by
    intro w hw
    rcases Signal.wave_cases hw with rfl | rfl | rfl | rfl <;> decide
  have hnumber : ∀ {o : Oscillator}, (Signal.oscillator o).Short →
      ∀ x ∈ [o.min, o.max, o.speed, o.offset],
      ∀ c ∈ [',', ')'], c ∉ (Number.plain x).toList := by
    intro o ho x hx c hc
    refine Number.notMem_plain (ho x hx).1 ?_
    rcases List.mem_pair.1 hc with rfl | rfl <;> decide
  have hlist := congrArg String.toList h
  rw [htext o hshort, htext o' hshort'] at hlist
  obtain ⟨-, hlist⟩ := eq_of_append_cons (hparen hwave) (hparen hwave') hlist
  have hn := hnumber hshort
  have hn' := hnumber hshort'
  simp only [List.forall_mem_cons] at hn hn'
  obtain ⟨hmin, hlist⟩ := eq_of_append_cons hn.1.1 hn'.1.1 (List.append_cancel_left hlist)
  obtain ⟨hmax, hlist⟩ := eq_of_append_cons hn.2.1.1 hn'.2.1.1 (List.append_cancel_left hlist)
  obtain ⟨hspeed, hlist⟩ := eq_of_append_cons hn.2.2.1.1 hn'.2.2.1.1 (List.append_cancel_left hlist)
  obtain ⟨hoffset, -⟩ :=
    eq_of_append_cons hn.2.2.2.1.2.1 hn'.2.2.2.1.2.1 (List.append_cancel_left hlist)
  have hinj : ∀ {x y : Float}, (Number.plain x).toList = (Number.plain y).toList → x = y := fun h =>
    Number.plain_injective (String.toList_inj.1 h)
  rw [Signal.hidden, Signal.hidden, hinj hmin, hinj hmax, hinj hspeed, hinj hoffset]

/-- Only the text of an oscillator has a name and a parenthesis behind it. -/
theorem Signal.oscillator_text_ne {o : Oscillator} (hwave : o.wave ∈ Wave.all) {τ : Signal}
    (hτ : τ.Sound) (hother : ∀ o', τ ≠ .oscillator o') : (Signal.oscillator o).text ≠ τ.text := by
  intro h
  obtain ⟨cs, htext, -⟩ := Signal.toList_oscillator o
  rw [h] at htext
  cases τ with
  | closure s f =>
    have hhead : (o.wave.name.toList ++ '(' :: cs).head? = some '(' := by
      rw [← htext, Signal.text, String.toList_append]
      rfl
    rcases Signal.wave_cases hwave with hw | hw | hw | hw <;> rw [hw] at hhead
      <;> simp [Wave.name] at hhead
  | state field =>
    have hparen : '(' ∈ field.toList := by
      change (Signal.state field).text.toList = _ at htext
      rw [show field.toList = _ from htext]
      simp
    rcases Signal.field_cases hτ with rfl | rfl | rfl | rfl | rfl | rfl | rfl | rfl
      <;> exact absurd hparen (by decide)
  | oscillator o' => exact hother o' rfl

/-- A signal whose numbers have six places at most is told by its text. -/
theorem Signal.Short.eq_of_text {σ τ : Signal} (hσ : σ.Sound) (hτ : τ.Sound) (hs : σ.Short)
    (ht : τ.Short) (h : σ.text = τ.text) : σ = τ := by
  refine Signal.eq_of_text hσ hτ ?_ h
  cases σ with
  | oscillator o =>
    cases τ with
    | oscillator o' => exact Signal.eq_of_oscillator_text hs ht hσ hτ h
    | _ => exact absurd h (Signal.oscillator_text_ne hσ hτ nofun)
  | _ =>
    cases τ with
    | oscillator o' => exact absurd h.symm (Signal.oscillator_text_ne hτ hσ nofun)
    | _ => rfl

/-- What is read again is told by the text. -/
theorem Dynamic.Retold.reread_inj {d d' : Dynamic} (h : d.Retold) (h' : d'.Retold)
    (htext : d.sourceText = d'.sourceText) :
    d.reread = d'.reread := by
  obtain ⟨hsound, hmin, hmax, hnegated, hsame, hshort, -⟩ := h.reread_eq
  obtain ⟨hsound', hmin', hmax', hnegated', hsame', hshort', -⟩ := h'.reread_eq
  have hplain : ∀ d : Dynamic, d.negated = false → d.sourceText = d.signal.text := by
    rintro ⟨signal, min, max, negated⟩ rfl
    cases signal <;> rfl
  rw [← hsame, ← hsame', hplain _ hnegated, hplain _ hnegated'] at htext
  have hsignal := Signal.Short.eq_of_text hsound hsound' hshort hshort' htext
  generalize d.reread = e at *
  generalize d'.reread = e' at *
  obtain ⟨signal, min, max, negated⟩ := e
  obtain ⟨signal', min', max', negated'⟩ := e'
  dsimp only at *
  rw [hsignal, hmin, hmin', hmax, hmax', hnegated, hnegated']

/-- The loops around a step. -/
inductive Repeat.HasHeaders : Repeat → List String → Prop
  | once : HasHeaders {} []
  | counted {n : Nat} (hn : 0 < n) (hle : n ≤ maxRepeat) :
      HasHeaders ⟨n, none⟩ ["loop " ++ Number.plain (Number.ofInt n)]
  | both {n : Nat} {d : Dynamic} (hn : 0 < n) (hle : n ≤ maxRepeat) :
      HasHeaders ⟨n, some d⟩ ["loop " ++ Number.plain (Number.ofInt n), "loop " ++ d.sourceText]
  | factor {d : Dynamic} : HasHeaders ⟨1, some d⟩ ["loop " ++ d.sourceText]

theorem Step.Framed.hasHeaders {st : Step} (h : st.Framed) : ∃ hs, st.repetition.HasHeaders hs ∧
    Printer.headers st = (st.guards.map fun g => "if " ++ g.sourceText) ++ hs := by
  obtain ⟨-, hpos, hle, -⟩ := h
  unfold Printer.headers
  generalize st.repetition = r at hpos hle
  by_cases honce : r.isOnce = true
  · rw [(Step.isOnce_iff hpos).1 honce]
    exact ⟨[], .once, rfl⟩
  · rw [if_neg honce]
    obtain ⟨count, factor⟩ := r
    obtain ⟨n, rfl⟩ := Int.eq_ofNat_of_zero_le hpos.le
    have hn : 0 < n := Int.natCast_pos.1 hpos
    have hnle : n ≤ maxRepeat := Int.ofNat_le.1 hle
    cases factor with
    | none => exact ⟨_, .counted hn hnle, rfl⟩
    | some d =>
      dsimp only
      split
      · exact ⟨_, .both hn hnle, rfl⟩
      · next hone =>
        obtain rfl : n = 1 := by
          have : ¬ (1 : Int) < n := hone
          omega
        exact ⟨_, .factor, rfl⟩

/-- The loops of a step are told by their headers. -/
theorem Repeat.HasHeaders.inj {r r' : Repeat} {hs : List String} (h : r.HasHeaders hs)
    (h' : r'.HasHeaders hs) (hr : ∀ d, r.factor = some d → d.Retold ∧ d.negated = false)
    (hr' : ∀ d, r'.factor = some d → d.Retold ∧ d.negated = false) :
    r = r' := by
  have hword : ∀ {a b : String}, "loop " ++ a = "loop " ++ b → a = b := by
    intro a b h
    have hlist := congrArg String.toList h
    rw [String.toList_append, String.toList_append] at hlist
    exact String.toList_inj.1 (List.append_cancel_left hlist)
  have hcount : ∀ {m n : Nat}, m ≤ maxRepeat → n ≤ maxRepeat →
      "loop " ++ Number.plain (Number.ofInt m) = "loop " ++ Number.plain (Number.ofInt n) →
          m = n := by
    intro m n hm hn h
    have hsame := Number.plain_injective (hword h)
    obtain ⟨-, -, hvalue⟩ := Number.ofInt_natCast (n := m) (hm.trans (by decide))
    obtain ⟨-, -, hvalue'⟩ := Number.ofInt_natCast (n := n) (hn.trans (by decide))
    rw [hsame, hvalue'] at hvalue
    exact_mod_cast hvalue.symm
  have hplain : ∀ {d : Dynamic}, d.Retold → d.negated = false → d.sourceText = d.text := by
    rintro ⟨signal, min, max, negated⟩ - rfl
    cases signal <;> rfl
  have hkind : ∀ {n : Nat} {d : Dynamic}, d.Retold ∧ d.negated = false →
      "loop " ++ Number.plain (Number.ofInt n) ≠ "loop " ++ d.sourceText := by
    rintro n d ⟨hd, hnegated⟩ h
    have hnumber := Value.kindOf_plain (Number.ofInt n)
    rw [hword h, hplain hd hnegated, Value.kindOf_text hd.bare.sound hnegated] at hnumber
    cases hnumber
  have hfactor : ∀ {d d' : Dynamic}, d.Retold ∧ d.negated = false → d'.Retold ∧ d'.negated = false →
      "loop " ++ d.sourceText = "loop " ++ d'.sourceText → d = d' := by
    rintro d d' ⟨hd, hnegated⟩ ⟨hd', hnegated'⟩ h
    have hsame := hd.reread_inj hd' (hword h)
    rwa [hd.reread_eq.2.2.2.2.2.2 hnegated, hd'.reread_eq.2.2.2.2.2.2 hnegated'] at hsame
  generalize hhs : hs = hs' at h'
  cases h with
  | once => cases h' <;> first | rfl | simp at hhs
  | counted hn hle =>
    cases h' with
    | counted hn' hle' => rw [hcount hle hle' (List.cons.inj hhs).1]
    | factor => exact absurd (List.cons.inj hhs).1 (hkind (hr' _ rfl))
    | _ => simp at hhs
  | both hn hle =>
    cases h' with
    | both hn' hle' =>
      obtain ⟨hfirst, hsecond⟩ := List.cons.inj hhs
      rw [hcount hle hle' hfirst, hfactor (hr _ rfl) (hr' _ rfl) (List.cons.inj hsecond).1]
    | _ => simp at hhs
  | factor =>
    cases h' with
    | counted hn' hle' => exact absurd (List.cons.inj hhs).1.symm (hkind (hr _ rfl))
    | factor => rw [hfactor (hr _ rfl) (hr' _ rfl) (List.cons.inj hhs).1]
    | _ => simp at hhs

/-- The conditions and the loops of a step are told by the blocks around it. -/
theorem Step.Retold.of_headers {st st' : Step} (h : st.Retold) (h' : st'.Retold)
    (heq : Printer.headers st = Printer.headers st') :
    st.guards.map Dynamic.reread = st'.guards.map Dynamic.reread ∧
    st.repetition = st'.repetition := by
  obtain ⟨hs, hloops, hheaders⟩ := h.framed.hasHeaders
  obtain ⟨hs', hloops', hheaders'⟩ := h'.framed.hasHeaders
  have hguard : ∀ gs : List Dynamic, ∀ t ∈ gs.map fun g => "if " ++ g.sourceText,
      t.toList.head? = some 'i' := by
    intro gs t ht
    obtain ⟨g, -, rfl⟩ := List.mem_map.1 ht
    rw [String.toList_append]
    rfl
  have hloop : ∀ {r : Repeat} {hs : List String}, r.HasHeaders hs → ∀ t ∈ hs,
      ¬ t.toList.head? = some 'i' := by
    intro r hs h t ht
    have hword : ∃ u, t = "loop " ++ u := by
      cases h <;> simp at ht
      · exact ⟨_, ht⟩
      · rcases ht with ht | ht <;> exact ⟨_, ht⟩
      · exact ⟨_, ht⟩
    obtain ⟨u, rfl⟩ := hword
    rw [String.toList_append]
    simp
  rw [hheaders, hheaders'] at heq
  obtain ⟨hguards, hsame⟩ :=
    split_of_append (hguard _) (hguard _) (hloop hloops) (hloop hloops') heq
  refine ⟨?_, ?_⟩
  · have hall : ∀ gs gs' : List Dynamic, (∀ g ∈ gs, g.Retold) → (∀ g ∈ gs', g.Retold) →
        (gs.map fun g => "if " ++ g.sourceText) = (gs'.map fun g => "if " ++ g.sourceText) →
        gs.map Dynamic.reread = gs'.map Dynamic.reread := by
      intro gs gs' hgs hgs' hmap
      induction gs generalizing gs' with
      | nil => cases gs' <;> simp_all
      | cons g gs ih =>
        cases gs' with
        | nil => simp at hmap
        | cons g' gs' =>
          obtain ⟨hfirst, hrest⟩ := List.cons.inj hmap
          obtain ⟨hg, hgs⟩ := List.forall_mem_cons.1 hgs
          obtain ⟨hg', hgs'⟩ := List.forall_mem_cons.1 hgs'
          have hlist := congrArg String.toList hfirst
          rw [String.toList_append, String.toList_append] at hlist
          have hsame := hg.reread_inj hg' (String.toList_inj.1 (List.append_cancel_left hlist))
          rw [List.map_cons, List.map_cons, hsame, ih gs' hgs hgs' hrest]
    exact hall _ _ h.guards h'.guards hguards
  · exact hloops.inj (hsame ▸ hloops') (fun d hd => ⟨h.factor d hd, (h.framed.factor d hd).2⟩)
      fun d hd => ⟨h'.factor d hd, (h'.framed.factor d hd).2⟩

end EffectChain
