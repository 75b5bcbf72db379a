import EffectChain.Proofs.Plan.Constants
import EffectChain.Proofs.Plan.Growth
import EffectChain.Proofs.Program.Phrases

/-!
# EffectChain.Proofs.Plan.Reread

The values of a plan, written and read again.

Numbers with six places at most, truth values, colors, surfaces, closures, fields of the state and
oscillators are phrases (`Dynamic.phrase_sourceText`, `Printer.phrase_value`): wherever they are
written they are read as they were, if their parameter takes them as they stand
(`Printer.Spells`).
-/

namespace EffectChain

open EffectChain.Parser EffectChain.Lexer

variable {search : List String}

namespace Lexer

/-- Neither a name nor the body of a closure goes on there, and no arrow stands there. -/
structure EndsValue (after : Bytes) : Prop where
  word : EndsWord after
  call : EndsCall after
  closure : closureBodyLength 0 after = 0

theorem EndsArgument.endsValue {after : Bytes} (h : EndsArgument after) : EndsValue after := by
  refine ⟨h.endsWord, ?_, ?_⟩
  · obtain ⟨b, rest, rfl, rfl | rfl⟩ := h <;> exact .cons (by decide) rest
  · obtain ⟨b, rest, rfl, rfl | rfl⟩ := h <;> (rw [closureBodyLength.eq_def]; rfl)

theorem endsValue_brace (after : Bytes) : EndsValue (123 :: after) :=
  ⟨fun b hb => Option.some.inj hb ▸ rfl, .cons (by decide) after,
    by rw [closureBodyLength.eq_def]; rfl⟩

theorem EndsCall.blank {after : Bytes} (h : EndsCall after) : EndsCall (32 :: after) := h

/-- The surfaces of the language. -/
def surfaces : List Surface :=
  (List.range 8).map (⟨.output, ·⟩) ++ (List.range 4).map (⟨.feedback, ·⟩) ++
    (List.range 8).map (⟨.source, ·⟩)

/-- The surfaces a program can name are all listed. -/
theorem mem_surfaces {o : Surface} (h : o.Named) : o ∈ surfaces := by
  obtain ⟨n, hn⟩ := h
  unfold Surface.ofName? surfaceWord? at hn
  split at hn
  · rename_i letter index hword
    split at hword
    · split at hword
      · obtain ⟨limit, hlimit, hindex⟩ := Option.map_eq_some_iff.1 hword
        rw [Prod.mk.injEq, Prod.mk.injEq, decide_eq_true_eq] at hindex
        obtain ⟨rfl, rfl, hlt⟩ := hindex
        obtain ⟨kind, hkind, rfl⟩ := Option.map_eq_some_iff.1 hn
        unfold surfaceLimit? at hlimit
        unfold SurfaceKind.ofLetter? at hkind
        split at hlimit <;> simp_all [surfaces]
      · cases hword
    · cases hword
  · cases hn

/-- The name of a nameable surface is a word, and is read as that surface. -/
theorem word_of_surface {o : Surface} (h : o.Named) :
    Surface.ofName? o.name = some o ∧ IsWord o.name := by
  have hall : ∀ o ∈ surfaces, Surface.ofName? o.name = some o ∧ IsWord o.name := by decide +kernel
  exact hall o (mem_surfaces h)

/-- The name of a surface is read as the surface. -/
theorem phrase_surface {o : Surface} (h : o.Named) :
    Surface.ofName? o.name = some o ∧
    Phrase EndsWord o.name (IsToken .surface (Bytes.ofString o.name)) := by
  obtain ⟨hname, hword⟩ := word_of_surface h
  refine ⟨hname, ?_⟩
  unfold Surface.ofName? at hname
  split at hname
  · exact .of_scans (scans_surface hword ‹_›)
  · cases hname

/-- A surface between the parentheses of an output. -/
theorem phrase_out {ends : Bytes → Prop} {o : Surface} (h : o.Named) :
    Phrase ends (".out(" ++ o.name ++ ")") (IsOut o) := by
  obtain ⟨hname, hsurface⟩ := phrase_surface h
  obtain ⟨-, b, bs, hbytes, hstart⟩ := (word_of_surface h).2.bytes
  have hclose : Phrase ends (o.name ++ ")") _ := hsurface.append Phrase.rparen fun after _ => by
    rintro b ⟨⟩
    rfl
  have hopen : Phrase ends ("(" ++ (o.name ++ ")")) _ :=
      Phrase.lparen.append hclose fun after _ => by
    rw [Bytes.ofString_append, List.append_assoc, hbytes]
    exact closureHead?_eq_none (.inr ⟨b, bs, rfl, isBlank_of_isNameStart hstart⟩)
  have hout : Phrase ends ("out" ++ ("(" ++ (o.name ++ ")"))) _ :=
      (Phrase.name (by decide +kernel)).append hopen fun after _ => by
    rw [Bytes.ofString_append]
    rintro b ⟨⟩
    rfl
  have hdot : Phrase ends ("." ++ ("out" ++ ("(" ++ (o.name ++ ")")))) _ :=
      Phrase.dot.append hout fun _ _ => by
    rw [Bytes.ofString_append]
    rfl
  have htext : ".out(" ++ o.name ++ ")" = "." ++ ("out" ++ ("(" ++ (o.name ++ ")"))) := by
    have hsigns : ".out(" = "." ++ ("out" ++ "(") := rfl
    rw [hsigns]
    simp only [String.append_assoc]
  rw [htext]
  refine hdot.mono (fun _ => id) ?_
  rintro _ ⟨_, _, rfl, ⟨pos, rfl⟩, _, _, rfl, ⟨pos', rfl⟩, _, _, rfl, ⟨pos'', rfl⟩, _, _, rfl,
    ⟨pos₃, rfl⟩, ⟨pos₄, rfl⟩⟩
  exact ⟨pos, pos', pos'', o.name, pos₃, pos₄, hname, rfl⟩

end Lexer

/-! ## numbers -/

namespace Number

/-- The number has six places at most. -/
def Short (x : Float) : Prop := isFinite x = true ∧ round6 x = x

/-- A short number is printed the same by both printers. -/
theorem Short.brief {x : Float} (h : Short x) : brief x = plain x := congrArg plain h.2

/-- The digits of a number are read as the number. -/
theorem phrase_plain {x : Float} (h : isFinite x = true) :
    Phrase EndsNumber (plain x) fun ts =>
      Opens ts ∧ Denotes search (fun e => ∃ raw pos, e = .number x raw pos) ts := by
  cases hsign : isNegative x with
  | false =>
    have htext : plain x = positional (shortest (Parts.of x)) := by
      rw [plain, if_pos h, signText, hsign]
      exact String.empty_append
    rw [htext]
    refine (Phrase.of_scans (scans_decimal (isDecimal_positional _ (shortest_digits_lt _)))).mono
      (fun _ => id) fun ts hts => ?_
    exact ⟨.of_isToken hts (by decide), reads_decimal (read?_positional h hsign) hts⟩
  | true =>
    have hread := read?_positional (isFinite_neg h) (by rw [isNegative_neg h, hsign]; rfl)
    rw [parts_neg h] at hread
    have htext : plain x = "-" ++ positional (shortest (Parts.of x)) := by
      rw [plain, if_pos h, signText, hsign]
      rfl
    have hminus : Phrase (fun _ => True) "-" (IsToken .minus [45]) := Phrase.minus
    rw [htext]
    refine (hminus.append
      (Phrase.of_scans (scans_decimal (isDecimal_positional _ (shortest_digits_lt _))))
      fun _ _ => trivial).mono (fun _ => id) fun ts hts => ?_
    have hnegative : Denotes search _ ts := reads_negative hread hts
    rw [neg_neg_eq h] at hnegative
    obtain ⟨us, vs, rfl, hus, -⟩ := hts
    exact ⟨(Opens.of_isToken hus (by decide)).append vs, hnegative⟩

/-- They begin with a digit or a sign. -/
theorem bytes_plain {x : Float} (h : isFinite x = true) :
    ∃ b bs, Bytes.ofString (plain x) = b :: bs ∧ isBlank b = false ∧ b ≠ 41 := by
  have hother : ∀ b : UInt8, isDigit (Char.ofUInt8 b) = true → isBlank b = false ∧ b ≠ 41 := by
    rintro ⟨⟨n⟩⟩
    revert n
    decide +kernel
  obtain ⟨b, bs, hbytes, hdigit⟩ := (isDecimal_positional _ (shortest_digits_lt (Parts.of x))).start
  rw [plain, if_pos h, signText, Bytes.ofString_append, hbytes]
  split
  · exact ⟨45, _, rfl, by decide, by decide⟩
  · exact ⟨b, bs, rfl, hother b hdigit⟩

end Number

/-! ## changing values -/

/-- An expression that stands for a changing value without bounds. -/
inductive Expr.Varies (k : Checker) : Dynamic → Expr → Prop
  | closure {source : String} {d : Dynamic} {pos : Pos} (h : Dynamic.closure? source = some d) :
      Varies k d (.closure source pos)
  | state {field : String} {pos : Pos} (h : isStateField field = true) : Varies k (.ofState field)
      (.ident field pos)
  | wave {o : Oscillator} {c : Call} (hwave : Checker.isWaveCall c = true)
      (h : k.oscillator c = (some o, [])) :
      Varies k (.ofOscillator o) (.call c)

theorem Bindings.deref_empty (e : Expr) : Bindings.deref {} e = e := by
  cases e <;> rfl

/-- A changing value is taken with the bounds of the argument. -/
theorem Expr.Varies.scalar {k : Checker} {d : Dynamic} {e : Expr} (h : e.Varies k d)
    (min max : Option Float) (what : String) :
    k.scalar {} e min max what = (some (.dynamic (d.bounded min max)), []) := by
  unfold Checker.scalar
  rw [Bindings.deref_empty]
  cases h with
  | closure h => simp only [h, Checker.accepted]
  | state h => simp only [h, Checker.accepted, if_true]
  | wave hwave h => simp only [hwave, h, if_true]

namespace Signal

/-- The numbers of an oscillator have six places at most. -/
def Short : Signal → Prop
  | .oscillator o => ∀ x ∈ [o.min, o.max, o.speed, o.offset], Number.Short x
  | _ => True

end Signal

/-- What the text of a changing value is read as; bounds are not written. -/
def Dynamic.reread? (d : Dynamic) : Option Dynamic :=
  if d.negated then closure? d.formula else some { signal := d.signal }

/-- A number under a name. -/
def numberItem (n : String) (x : Float) : Item :=
  ⟨n, Number.plain x, fun e => ∃ raw pos, e = .number x raw pos⟩

/-- The numbers of an oscillator. -/
def Oscillator.items (o : Oscillator) : List Item :=
  [numberItem "min" o.min, numberItem "max" o.max, numberItem "speed" o.speed,
    numberItem "offset" o.offset]

/-- A number under a name is read under that name. -/
theorem numberItem_read {n : String} {x : Float} {kw : Keyword} (h : (numberItem n x).Read kw) :
    ∃ raw pos pos', kw = ⟨n, .number x raw pos, pos'⟩ := by
  obtain ⟨name, value, pos'⟩ := kw
  obtain ⟨rfl, raw, pos, rfl⟩ := h
  exact ⟨raw, pos, pos', rfl⟩

/-- The call of a wave with the numbers of an oscillator stands for the oscillator. -/
theorem oscillator_items {k : Checker} {o : Oscillator} (hwave : o.wave ∈ Wave.all) {c : Call}
    (hname : c.name = o.wave.name) (hargs : c.args = [])
    (hkwargs : List.Forall₂ Item.Read o.items c.kwargs) : k.oscillator c = (some o, []) := by
  have hofName : Wave.ofName o.wave.name = o.wave := by
    rcases Signal.wave_cases hwave with h | h | h | h <;> rw [h] <;> decide
  obtain ⟨name, args, kwargs, ns, pos⟩ := c
  obtain rfl : name = o.wave.name := hname
  obtain rfl : args = [] := hargs
  obtain _ | ⟨hmin, _ | ⟨hmax, _ | ⟨hspeed, _ | ⟨hoffset, ⟨⟩⟩⟩⟩⟩ := hkwargs
  obtain ⟨_, _, _, rfl⟩ := numberItem_read hmin
  obtain ⟨_, _, _, rfl⟩ := numberItem_read hmax
  obtain ⟨_, _, _, rfl⟩ := numberItem_read hspeed
  obtain ⟨_, _, _, rfl⟩ := numberItem_read hoffset
  simp [Checker.oscillator, Checker.wavePositional, Checker.accepted, Checker.waveKeywords,
    Checker.waveFields, Checker.waveArgument, Checker.setWaveField, hofName]

/-- The text of an oscillator is read as the oscillator. -/
theorem Dynamic.phrase_oscillator (k : Checker) {o : Oscillator} (hwave : o.wave ∈ Wave.all)
    (hshort : (Signal.oscillator o).Short) :
    Phrase EndsCall (ofOscillator o).text (Denotes search (Expr.Varies k (ofOscillator o))) := by
  have hvalues : ∀ it ∈ o.items, Phrase EndsArgument it.text (Denotes search it.means) := by
    intro it hit
    obtain ⟨n, x, hx, rfl⟩ : ∃ n x, x ∈ [o.min, o.max, o.speed, o.offset] ∧
        it = numberItem n x := by
      simp only [Oscillator.items, List.mem_cons, List.not_mem_nil, or_false] at hit
      rcases hit with rfl | rfl | rfl | rfl <;> exact ⟨_, _, by simp, rfl⟩
    exact (Number.phrase_plain (hshort x hx).1).mono (fun _ => EndsArgument.endsNumber)
      fun ts hts => hts.2
  have hlist : o.items.map Item.name = ["min", "max", "speed", "offset"] := rfl
  have hnames : ∀ it ∈ o.items, IsName it.name := by
    have hall : ∀ n ∈ ["min", "max", "speed", "offset"], IsName n := by decide +kernel
    exact fun it hit => hall _ (hlist ▸ List.mem_map_of_mem hit)
  have hwaveName : IsName o.wave.name ∧ o.wave.name ≠ "Math" ∧ o.wave.name ≠ "out" := by
    rcases Signal.wave_cases hwave with h | h | h | h <;> rw [h] <;> decide +kernel
  have hargs : Phrase _ _ (ReadsArgs search _) :=
    (phrase_items hnames (by rw [hlist]; decide) hvalues).mono (fun _ => id) fun ts =>
      ReadsItems.readsArgs
  have hcall :=
    @phrase_call search [o.wave.name] (by simp) (by simpa using hwaveName.1)
      (by simpa using hwaveName.2) _ _ hargs
    (starts_items hnames)
  have htext : (ofOscillator o).text = ".".intercalate [o.wave.name] ++
      ("(" ++ (", ".intercalate (o.items.map Item.written) ++ ")")) := by
    have hbrief : ∀ x ∈ [o.min, o.max, o.speed, o.offset], Number.brief x = Number.plain x :=
      fun x hx => (hshort x hx).brief
    simp only [List.forall_mem_cons] at hbrief
    obtain ⟨hmin, hmax, hspeed, hoffset, -⟩ := hbrief
    have hopen : "(min: " = "(" ++ ("min" ++ ": ") := rfl
    have hcommas : ", max: " = ", " ++ ("max" ++ ": ") ∧ ", speed: " = ", " ++ ("speed" ++ ": ") ∧
        ", offset: " = ", " ++ ("offset" ++ ": ") := ⟨rfl, rfl, rfl⟩
    simp only [ofOscillator, text, hmin, hmax, hspeed, hoffset, Oscillator.items, numberItem,
      List.map_cons, List.map_nil, String.intercalate_cons_cons, String.intercalate_singleton,
      Item.written, hopen, hcommas.1, hcommas.2.1, hcommas.2.2, String.append_assoc,
        Bool.false_eq_true, if_false]
  rw [htext]
  refine hcall.mono (fun _ => id) fun ts hts => hts.reads.mono ?_
  rintro e ⟨c, rfl, hc⟩
  obtain ⟨hname, hexplicit⟩ := hc.single
  refine .wave ?_ (oscillator_items hwave hname hc.args.1 hc.args.2)
  have hfound : (Wave.ofName? o.wave.name).isSome = true := by
    rcases Signal.wave_cases hwave with h | h | h | h <;> rw [h] <;> decide
  rw [Checker.isWaveCall, hname, hfound, hexplicit]
  rfl

/-! ### the bodies of negated values -/

namespace Lexer.Balanced

/-- Digits, points and signs neither open nor close anything. -/
theorem of_numeric {cs : List Char} (h : ∀ c ∈ cs, c.isDigit = true ∨ c = '.' ∨ c = '-') :
    Balanced (Utf8.encode cs) := by
  have hascii : ∀ c ∈ cs, c.toNat < 0x80 := by
    intro c hc
    rcases h c hc with hdigit | rfl | rfl
    · have hle := (Bool.and_eq_true _ _ ▸ hdigit : _ ∧ _).2
      exact Nat.lt_of_le_of_lt (UInt32.le_iff_toNat_le.1 (of_decide_eq_true hle)) (by decide)
    · decide
    · decide
  have hchars := Utf8.map_encode_ascii hascii
  suffices hrun : ∀ bs : Bytes, (∀ b ∈ bs, Char.ofUInt8 b ∈ cs) →
      (BodyState.plain 0).run? bs = some (.plain 0) from
    hrun _ fun b hb => hchars ▸ List.mem_map_of_mem hb
  intro bs
  induction bs with
  | nil => exact fun _ => rfl
  | cons b bs ih =>
    intro hbs
    obtain ⟨hb, hbs⟩ := List.forall_mem_cons.1 hbs
    have hnext : BodyState.next? (.plain 0) b = some (.plain 0) := by
      have hother : ∀ c : Char, c.isDigit = false → c ≠ '.' → c ≠ '-' → Char.ofUInt8 b ≠ c := by
        rintro c hdigit hpoint hminus rfl
        rcases h _ hb with h | h | h
        · rw [hdigit] at h
          cases h
        · exact hpoint h
        · exact hminus h
      unfold BodyState.next?
      dsimp only
      split
      case h_11 => rfl
      all_goals
        rename_i heq
        exact absurd heq (hother _ (by decide) (by decide) (by decide))
    rw [BodyState.run?_cons, hnext]
    exact ih hbs

/-- A balanced text between texts that open brackets and close them. -/
theorem within {l m r : String} {d : Nat}
    (hl : (BodyState.plain 0).run? (Bytes.ofString l) = some (.plain d))
    (hm : Balanced (Bytes.ofString m))
    (hr : (BodyState.plain d).run? (Bytes.ofString r) = some (.plain 0)) :
    Balanced (Bytes.ofString (l ++ m ++ r)) := by
  rw [Balanced, Bytes.ofString_append, Bytes.ofString_append, BodyState.run?_append,
    BodyState.run?_append, hl]
  change ((BodyState.plain d).run? _).bind _ = _
  rw [hm.run?_plain]
  exact hr

/-- A text is balanced if both its parts are. -/
theorem ofString_append {l r : String} (hl : Balanced (Bytes.ofString l))
    (hr : Balanced (Bytes.ofString r)) :
    Balanced (Bytes.ofString (l ++ r)) := by
  rw [Bytes.ofString_append]
  exact hl.append hr

/-- A printed number holds no bracket. -/
theorem plain (x : Float) : Balanced (Bytes.ofString (Number.plain x)) := by
  cases hx : Number.isFinite x with
  | true =>
    refine of_numeric fun c hc => ?_
    rw [Number.toList_plain hx] at hc
    rcases List.mem_append.1 hc with hc | hc
    · split at hc
      · exact .inr (.inr (List.mem_singleton.1 hc))
      · cases hc
    · rcases Number.positional_chars (Number.shortest_digits_lt _) hc with h | h
      · exact .inl h
      · exact .inr (.inl h)
  | false =>
    obtain ⟨-, h⟩ | ⟨-, -, h⟩ := Number.plain_of_not_isFinite hx <;> rw [h]
    · rfl
    · split <;> rfl

/-- The formula of a wave has its brackets around the phase. -/
theorem wave (w : Wave) {phase : String} (h : Balanced (Bytes.ofString phase)) :
    Balanced (Bytes.ofString (w.formula phase)) := by
  cases w with
  | sine => exact within (d := 2) rfl h rfl
  | triangle => exact within (d := 2) rfl h rfl
  | saw => exact ofString_append rfl h
  | square => exact within (d := 1) rfl h rfl
  | unknown => rfl

/-- The formula of an oscillator is balanced. -/
theorem oscillator (o : Oscillator) : Balanced (Bytes.ofString o.formula) := by
  have hphase : Balanced
      (Bytes.ofString ("(time * " ++ Number.plain o.speed ++ " + " ++ Number.plain o.offset ++
          ")")) := by
    have hinner :=
      ((plain o.speed).ofString_append (r := " + ") rfl).ofString_append (plain o.offset)
    have hall := within (l := "(time * ") (d := 1) (r := ")") rfl hinner rfl
    simpa only [String.append_assoc] using hall
  have hscale :=
    ((plain o.min).ofString_append (r := " + ") rfl).ofString_append (plain (o.max - o.min))
  exact (hscale.ofString_append (r := " * ") rfl).ofString_append (wave o.wave hphase)

end Lexer.Balanced

/-- What a negated value is written as is the body of a closure. -/
theorem Dynamic.closureSource_formula {d : Dynamic} (hsound : d.signal.Sound)
    (hclosed : d.signal.Closed) (hnegated : d.negated = true) : ClosureSource d.formula := by
  obtain ⟨signal, min, max, negated⟩ := d
  obtain rfl : negated = true := hnegated
  have hbody : ∀ {s : String}, Balanced (Bytes.ofString s) →
      ClosureSource ("!truthy(" ++ s ++ ")") := by
    intro s hs
    refine ⟨.within (d := 1) rfl hs rfl, ?_, fun h => ?_⟩
    · rw [Text.trimSpace, Text.trimBoth_eq_self, String.ofList_toList]
      · rw [String.toList_append, String.toList_append, List.append_assoc]
        intro x hx
        obtain rfl := Option.some.inj hx
        decide
      · rw [String.toList_append]
        intro x hx
        change (("!truthy(" ++ s).toList ++ [')']).getLast? = some x at hx
        rw [List.getLast?_concat] at hx
        obtain rfl := Option.some.inj hx
        decide
    · have hlist := congrArg String.toList h
      simp at hlist
  cases signal with
  | closure source f => exact hbody hclosed.balanced
  | state field =>
    have hfields : ∀ field ∈ stateFields, Balanced (Bytes.ofString field) := by
      simp only [stateFields, List.forall_mem_cons]
      exact ⟨rfl, rfl, rfl, rfl, rfl, rfl, rfl, rfl, by simp⟩
    have hfield : isStateField field = true := hsound
    exact hbody (hfields field (by simpa [isStateField] using hfield))
  | oscillator o => exact hbody (.oscillator o)

/-- The text of a changing value, and a blank behind it if there is one, is read as the value
without bounds. -/
theorem Dynamic.phrase_sourceText (k : Checker) {d d' : Dynamic} (hsound : d.signal.Sound)
    (hclosed : d.signal.Closed) (hshort : d.negated = false → d.signal.Short)
    (h : d.reread? = some d') {blanks : String} (hblanks : blanks = "" ∨ blanks = " ") :
    Phrase EndsValue (d.sourceText ++ blanks) (Denotes search (Expr.Varies k d')) := by
  have hgap : ∀ {ends : Bytes → Prop} {text : String} {Q : List Token → Prop}, Phrase ends text Q →
      (∀ after, EndsValue after → ends after) → (∀ after, EndsValue after → ends (32 :: after)) →
      Phrase EndsValue (text ++ blanks) Q := by
    intro ends text Q hphrase hends hblank
    rcases hblanks with rfl | rfl
    · rw [String.append_empty]
      exact hphrase.mono hends fun _ => id
    · exact hphrase.append_gap Phrase.space hblank
  have hclosure : ∀ {source : String}, ClosureSource source → closure? source = some d' →
      Phrase EndsValue ("() => " ++ source ++ blanks) (Denotes search (Expr.Varies k d')) :=
          by
    intro source hsource hd'
    refine (Phrase.closure hsource hblanks).mono (fun _ => EndsValue.closure) fun ts hts =>
      (reads_closure hts).mono ?_
    rintro e ⟨pos, rfl⟩
    exact .closure hd'
  obtain ⟨signal, min, max, negated⟩ := d
  cases negated with
  | true =>
    have htext : sourceText ⟨signal, min, max, true⟩ = "() => " ++
        formula ⟨signal, min, max, true⟩ := by
      cases signal <;> rfl
    rw [htext]
    exact hclosure (closureSource_formula hsound hclosed rfl) h
  | false =>
    obtain rfl := Option.some.inj h
    cases signal with
    | closure source f =>
      have hformula : Formula.compile? closureScope (source.replace "Math." "") = some f := hsound
      have hread : closure? source = some { signal := .closure source f } := by
        rw [closure?, hformula, Option.map_some]
      exact hclosure hclosed hread
    | state field =>
      have hname : IsName field := by
        have hfields : ∀ field ∈ stateFields, IsName field := by decide +kernel
        have hfield : isStateField field = true := hsound
        exact hfields field (by simpa [isStateField] using hfield)
      have hread : ∀ ts, IsToken .identifier (Bytes.ofString field) ts →
          Denotes search (Expr.Varies k (.ofState field)) ts := by
        refine fun ts hts => (reads_ident hts).mono ?_
        rintro e ⟨pos, rfl⟩
        exact .state hsound
      refine hgap ((Phrase.name hname).mono (fun _ => id) hread) (fun _ => EndsValue.word)
          fun after _ b hb => ?_
      obtain rfl := Option.some.inj hb
      rfl
    | oscillator o =>
      exact hgap (phrase_oscillator k hsound (hshort rfl)) (fun _ => EndsValue.call) fun _ h =>
        EndsCall.blank h.call

/-! ## values of arguments -/

/-- The argument takes the number as it stands. -/
def ArgSpec.Takes (a : ArgSpec) (x : Float) : Prop :=
  a.type = .member ∨ (a.type = .float ∨ a.type = .int ∧ Number.round x = x) ∧ a.clamp x = (x, false)

/-- What is written for the value is the value, and the argument takes it: no name stands for a
number, and numbers have six places at most. -/
def Printer.Spells (u : Printer) (a : ArgSpec) : Value → Prop
  | .scalar x => u.memberName? a x = none ∧ Number.Short x ∧ a.Takes x
  | .boolean _ => a.type = .boolean
  | .text _ => False
  | .vector xs literal => literal = "" → ∀ x ∈ xs, Number.Short x
  | .ref _ => True
  | .dynamic d => d.signal.Short ∧ ∀ o, d.signal = .oscillator o → a.type ≠ .boolean

variable {k : Checker} {a : ArgSpec} {v : Value}

/-- What is written for an argument by the kind of the value. -/
def Value.Bears (a : ArgSpec) : Value → Prop
  | .ref o => a.type = .surface ∧ o.Named
  | .vector xs literal =>
    (a.type = .color ∨ a.type = .vec3 ∨ a.type = .vec4) ∧ xs.length = Checker.vectorSize a.type ∧
      (literal ≠ "" → SpellsColor literal ∧
        xs = (colorOf literal).components (Checker.vectorSize a.type) ∧
        (a.type = .color ∨ literal.utf8ByteSize ≠ 9))
  | .dynamic d =>
    (a.type = .boolean ∧ d.min = none ∧ d.max = none ∨
      (a.type = .float ∨ a.type = .int) ∧ d.min = a.min ∧ d.max = a.max) ∧
      d.signal.Sound ∧ d.signal.Closed ∧ d.negated = false
  | _ => True

theorem Value.Came.bears (h : v.Came a) : v.Bears a := by
  unfold Came at h
  unfold Bears
  cases ht : a.type <;> rw [ht] at h
  case surface =>
    obtain ⟨x, rfl, hx⟩ := h
    exact ⟨rfl, hx⟩
  case string | member =>
    obtain ⟨_, rfl⟩ := h
    trivial
  case color | vec3 | vec4 =>
    obtain ⟨xs, literal, rfl, hvector⟩ := h
    exact ⟨by simp, hvector⟩
  all_goals
    obtain ⟨hnumeric, hclosed⟩ := h
    cases v with
    | scalar | boolean => trivial
    | dynamic d =>
      obtain ⟨hsound, hnegated, hmin, hmax⟩ := hnumeric
      exact ⟨by simp [hmin, hmax], hsound, hclosed d rfl, hnegated⟩
    | _ => cases hnumeric

/-- The expression is the value in the place of the argument, wherever no variable is. -/
def Expr.Stands (k : Checker) (a : ArgSpec) (v : Value) (e : Expr) : Prop :=
  ∀ (s : Surroundings) (sub : LowerChain) (base : Nat), s.checker = k → s.vars = {} →
    s.argument sub base a e = ({}, some v)

/-- A literal stands for the value if no chain can. -/
theorem Expr.Stands.of_argument {e : Expr}
    (h : ∀ (s : Surroundings) (sub : LowerChain) (base : Nat), s.checker = k → s.vars = {} →
      (match a.type with
        | .surface => Surroundings.surfaceArg sub base a e
        | .float | .int => (Emitted.notes (k.numberArg {} a e).2, (k.numberArg {} a e).1)
        | .boolean => (Emitted.notes (k.boolArg {} a e).2, (k.boolArg {} a e).1)
        | .string => ({}, none)
        | .color | .vec3 | .vec4 =>
            (Emitted.notes (Checker.vectorArg a e).2, (Checker.vectorArg a e).1)
        | .member =>
            (Emitted.notes (k.memberArg a e).2, (k.memberArg a e).1)) =
              (({}, some v) : Emitted × Option Value)) :
    e.Stands k a v := by
  rintro s sub base rfl hvars
  have hvalue := h s sub base rfl hvars
  unfold Surroundings.argument
  rw [hvars, Bindings.deref_empty]
  cases ht : a.type <;> rw [ht] at hvalue <;> first | exact hvalue | cases hvalue

theorem Expr.Varies.stands {d : Dynamic} {e : Expr} (h : e.Varies k { signal := d.signal })
    (hd : (Value.dynamic d).Bears a) (hwave : ∀ o, d.signal = .oscillator o → a.type ≠ .boolean) :
    e.Stands k a (.dynamic d) := by
  obtain ⟨signal, min, max, negated⟩ := d
  obtain ⟨⟨ht, rfl, rfl⟩ | ⟨ht, rfl, rfl⟩, -, -, rfl⟩ := hd
  · refine .of_argument fun s sub base _ _ => ?_
    have hbool : k.boolArg {} a e = (some (.dynamic { signal }), []) := by
      have hscalar := h.scalar none none ("argument " ++ a.name)
      cases h with
      | closure => exact hscalar
      | state => exact hscalar
      | wave => exact absurd ht (hwave _ rfl)
    rw [ht]
    dsimp only
    rw [hbool]
    rfl
  · refine .of_argument fun s sub base _ _ => ?_
    have hnumber : k.numberArg {} a e = (some (.dynamic ⟨signal, a.min, a.max, false⟩), []) := by
      have hscalar := h.scalar a.min a.max ("argument " ++ a.name)
      cases h with
      | closure => exact hscalar
      | state hfield =>
        simp only [Checker.numberArg, hfield]
        exact hscalar
      | wave hcall =>
        simp only [Checker.numberArg, hcall, if_true]
        exact hscalar
    rcases ht with ht | ht <;> rw [ht] <;> dsimp only <;> rw [hnumber] <;> rfl

/-- A number that the argument takes stands for itself. -/
theorem stands_number {x : Float} (h : a.Takes x) (raw : String) (pos : Pos) :
    (Expr.number x raw pos).Stands k a (.scalar x) := by
  refine .of_argument fun s sub base _ _ => ?_
  rcases h with ht | ⟨ht | ⟨ht, hround⟩, hclamp⟩
  · rw [ht]
    rfl
  · rw [ht]
    simp [Checker.numberArg, ht, hclamp, Emitted.notes]
  · rw [ht]
    simp [Checker.numberArg, ht, hround, hclamp, Emitted.notes]

theorem stands_bool (h : a.type = .boolean) (b : Bool) (pos : Pos) :
    (Expr.bool b pos).Stands k a (.boolean b) := by
  refine .of_argument fun s sub base _ _ => ?_
  rw [h]
  rfl

theorem stands_surface (h : a.type = .surface) (o : Surface) (pos : Pos) :
    (Expr.surface o pos).Stands k a (.ref o) := by
  refine .of_argument fun s sub base _ _ => ?_
  rw [h]
  rfl

/-- What is taken as the vector stands for it, since no chain gives one. -/
theorem stands_vector {xs : List Float} {literal : String} {e : Expr}
    (ht : a.type = .color ∨ a.type = .vec3 ∨ a.type = .vec4)
    (h : Checker.vectorArg a e = (some (.vector xs literal), [])) :
    e.Stands k a (.vector xs literal) := by
  refine .of_argument fun s sub base _ _ => ?_
  rcases ht with ht | ht | ht <;> rw [ht] <;> dsimp only <;> rw [h] <;> rfl

/-- Numbers between the parentheses of a vector are its components. -/
theorem numbers_of_forall₂ {xs : List Float} {es : List Expr}
    (h : List.Forall₂ (fun x e => ∃ raw pos, e = Expr.number x raw pos) xs es) :
    Checker.numbers es = .ok xs := by
  induction h with
  | nil => rfl
  | cons he _ ih =>
    obtain ⟨raw, pos, rfl⟩ := he
    rw [Checker.numbers, ih]
    rfl

/-- The text of a vector is read as the vector. -/
theorem phrase_vector {xs : List Float} (h : (Value.vector xs "").Bears a)
    (hshort : ∀ x ∈ xs, Number.Short x) :
    Phrase EndsCall (Value.vectorText xs) (Denotes search (Expr.Stands k a (.vector xs ""))) := by
  obtain ⟨ht, hlength, -⟩ := h
  obtain ⟨n, hn, hname⟩ : ∃ n : String, "vec" ++ toString xs.length = n ∧
      (n = "vec3" ∧ xs.length = 3 ∨ n = "vec4" ∧ xs.length = 4) := by
    rcases Checker.vectorSize_cases a.type with hsize | hsize <;> rw [hlength, hsize]
      <;> exact ⟨_, rfl, by decide⟩
  have hplain : xs.map Number.brief = xs.map Number.plain := List.map_congr_left fun x hx =>
    (hshort x hx).brief
  have hargs : Phrase _ (", ".intercalate (xs.map Number.plain)) (ReadsArgs search _) :=
    phrase_operands fun x hx =>
      (Number.phrase_plain (hshort x hx).1).mono (fun _ => EndsArgument.endsNumber) fun _ => id
  have hfirst : ∃ b bs, Bytes.ofString (", ".intercalate (xs.map Number.plain)) = b :: bs ∧
      isBlank b = false ∧ b ≠ 41 := by
    cases xs with
    | nil => rcases hname with ⟨-, h⟩ | ⟨-, h⟩ <;> cases h
    | cons x xs =>
      obtain ⟨b, bs, hbytes, hb⟩ := Number.bytes_plain (hshort x List.mem_cons_self).1
      obtain ⟨rest, hrest⟩ := exists_intercalate_cons ", " (Number.plain x) (xs.map Number.plain)
      rw [List.map_cons, hrest, Bytes.ofString_append, hbytes]
      exact ⟨b, _, rfl, hb⟩
  have hcall :=
    @phrase_call search [n] (by simp) (by rcases hname with ⟨rfl, -⟩ | ⟨rfl, -⟩ <;> decide +kernel)
    (by rcases hname with ⟨rfl, -⟩ | ⟨rfl, -⟩ <;> decide) _ _ hargs (.inr hfirst)
  have htext : Value.vectorText xs = ".".intercalate [n] ++
      ("(" ++ (", ".intercalate (xs.map Number.plain) ++ ")")) := by
    rw [Value.vectorText, hplain, hn, String.intercalate_singleton, String.append_assoc,
      String.append_assoc]
  rw [htext]
  refine hcall.mono (fun _ => id) fun ts hts => hts.reads.mono ?_
  rintro e ⟨c, rfl, hc⟩
  obtain ⟨hcname, hexplicit⟩ := hc.single
  refine stands_vector ht ?_
  have hsize : (if c.name = "vec4" then 4 else 3) = Checker.vectorSize a.type := by
    rw [hcname, ← hlength]
    rcases hname with ⟨rfl, h⟩ | ⟨rfl, h⟩ <;> rw [h] <;> decide
  have hcount : c.args.length = Checker.vectorSize a.type := by rw [← hlength, hc.args.2.length_eq]
  have hcalled : (c.ns.explicit || (c.name ≠ "vec3" && c.name ≠ "vec4") || !c.kwargs.isEmpty) =
      false := by
    have hkwargs : c.kwargs = [] := hc.args.1
    rw [hexplicit, hcname, hkwargs]
    rcases hname with ⟨rfl, -⟩ | ⟨rfl, -⟩ <;> decide
  simp only [Checker.vectorArg, hcalled, hsize, hcount, numbers_of_forall₂ hc.args.2, hlength]
  simp [Checker.accepted]

/-- The text of a value that is no chain is read as the value. -/
theorem Printer.phrase_value {p : Plan} {chain : Nat → String} (hcame : v.Came a)
    (hspells : (k.printer p).Spells a v) :
    Phrase EndsArgument ((k.printer p).valueText chain a v)
      (Denotes search (Expr.Stands k a v)) := by
  cases v with
  | scalar x =>
    obtain ⟨hname, hshort, htakes⟩ := hspells
    have htext : (k.printer p).valueText chain a (.scalar x) = Number.plain x := by
      unfold valueText
      dsimp only
      rw [hname, ite_self, Option.getD_none, hshort.brief]
    rw [htext]
    refine (Number.phrase_plain hshort.1).mono (fun _ => EndsArgument.endsNumber) fun ts hts =>
      hts.2.mono ?_
    rintro e ⟨raw, pos, rfl⟩
    exact stands_number htakes raw pos
  | boolean b =>
    have hword : IsWord (if b then "true" else "false") := by cases b <;> decide +kernel
    refine (Phrase.keyword hword (by cases b <;> decide) (by cases b <;> decide)).mono
      (fun _ => EndsArgument.endsWord)
      fun ts hts => (reads_bool b hts).mono ?_
    rintro e ⟨pos, rfl⟩
    exact stands_bool hspells b pos
  | text t => cases hspells
  | vector xs literal =>
    obtain ⟨ht, -, hcolor⟩ := hcame.bears
    by_cases hliteral : literal = ""
    · subst hliteral
      exact (phrase_vector hcame.bears (hspells rfl)).mono (fun _ h => h.endsValue.call) fun _ => id
    · obtain ⟨hspelled, hcomponents, hkept⟩ := hcolor hliteral
      have htext : (k.printer p).valueText chain a (.vector xs literal) = literal := if_neg hliteral
      rw [htext]
      refine (Phrase.color hspelled).mono (fun _ => EndsArgument.endsWord) fun ts hts =>
        (reads_color hts).mono ?_
      rintro e ⟨pos, rfl⟩
      refine stands_vector ht ?_
      have hkeep : (a.type = .color || literal.utf8ByteSize ≠ 9) = true := by simpa using hkept
      simp only [Checker.vectorArg, hkeep, if_true, ← hcomponents]
      rfl
  | ref o =>
    obtain ⟨ht, ho⟩ := hcame.bears
    obtain ⟨hname, hphrase⟩ := phrase_surface ho
    have htext : (k.printer p).valueText chain a (.ref o) = o.name := if_neg ho.kind
    rw [htext]
    refine hphrase.mono (fun _ => EndsArgument.endsWord) fun ts hts =>
      (reads_surface hname hts).mono ?_
    rintro e ⟨pos, rfl⟩
    exact stands_surface ht o pos
  | dynamic d =>
    obtain ⟨hshort, hwave⟩ := hspells
    obtain ⟨-, hsound, hclosed, hnegated⟩ := hcame.bears
    have hread : d.reread? = some { signal := d.signal } := by rw [Dynamic.reread?, hnegated]; rfl
    have hphrase : Phrase EndsValue (d.sourceText ++ "") (Denotes search _) :=
      Dynamic.phrase_sourceText k hsound hclosed (fun _ => hshort) hread (.inl rfl)
    rw [String.append_empty] at hphrase
    exact hphrase.mono (fun _ => EndsArgument.endsValue) fun ts hts => hts.mono fun e he =>
      he.stands hcame.bears hwave

end EffectChain
