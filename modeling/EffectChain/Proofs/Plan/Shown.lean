import EffectChain.Plan.Argument
import EffectChain.Proofs.Number.Shortest
import EffectChain.Proofs.Text.Fields

/-!
# EffectChain.Proofs.Plan.Shown

What the text of a value tells.

Numbers, truth values, texts, hex colors, surfaces, closures and fields of the state are
told by their texts.  Vectors and oscillators are not: their numbers are written to six
places (`Value.hidden`).  Values of one argument with the same text and the same hidden
numbers are the same (`Value.eq_of_shown`).
-/

namespace EffectChain

open Fields

/-! ## characters -/

/-- No end of a line and no equals sign. -/
def Quiet (cs : List Char) : Prop := ∀ c ∈ cs, c ≠ '\n' ∧ c ≠ '='

instance (cs : List Char) : Decidable (Quiet cs) :=
  List.decidableBAll (fun c => c ≠ '\n' ∧ c ≠ '=') cs

namespace Quiet

/-- Quiet texts make a quiet text. -/
theorem append {as bs : List Char} (ha : Quiet as) (hb : Quiet bs) : Quiet (as ++ bs) := by
  intro c hc
  rcases List.mem_append.1 hc with h | h
  · exact ha c h
  · exact hb c h

theorem of_isDigit {cs : List Char} (h : ∀ c ∈ cs, c.isDigit = true) : Quiet cs := by
  intro c hc
  constructor <;> rintro rfl <;> exact absurd (h _ hc) (by decide)

theorem toString (n : Nat) : Quiet (ToString.toString n).toList := by
  rw [Nat.toString_eq_repr, Nat.toList_repr]
  exact of_isDigit fun c hc => Nat.isDigit_of_mem_toDigits (by decide) (by decide) hc

/-- Quiet texts with quiet separators are quiet. -/
theorem intercalate {sep : List Char} {ls : List (List Char)} (hs : Quiet sep)
    (hl : ∀ l ∈ ls, Quiet l) :
    Quiet (sep.intercalate ls) := by
  induction ls with
  | nil => simp [Quiet]
  | cons l ls ih =>
    cases ls with
    | nil => simpa using hl l (by simp)
    | cons l' ls =>
      rw [List.intercalate_cons_cons]
      exact ((hl l (by simp)).append hs).append (ih fun x hx => hl x (List.mem_cons_of_mem l hx))

/-- A number in full is written quietly. -/
theorem plain (x : Float) : Quiet (Number.plain x).toList := by
  cases hx : Number.isFinite x with
  | true =>
    rw [Number.toList_plain hx]
    refine append ?_ ?_
    · split <;> decide
    · intro c hc
      obtain hc | rfl := Number.positional_chars (Number.shortest_digits_lt _) hc
      · constructor <;> rintro rfl <;> exact absurd hc (by decide)
      · decide
  | false =>
    obtain ⟨-, h⟩ | ⟨-, -, h⟩ := Number.plain_of_not_isFinite hx <;> rw [h]
    · decide
    · split <;> decide

theorem brief (x : Float) : Quiet (Number.brief x).toList := plain _

theorem isClear {cs : List Char} (h : Quiet cs) : isClear cs = true :=
  isClear_of_notMem (fun hn => (h _ hn).1 rfl) fun he => (h _ he).2 rfl

end Quiet

theorem toString_injective {m n : Nat} (h : (toString m).toList = (toString n).toList) : m = n := by
  rw [Nat.toString_eq_repr, Nat.toString_eq_repr, Nat.toList_repr, Nat.toList_repr] at h
  have hvalue := congrArg (Nat.ofDigitChars 10 · 0) h
  simpa [Nat.ofDigitChars_toDigits] using hvalue

theorem toString_digits (n : Nat) : ∀ c ∈ (toString n).toList, c.isDigit = true := by
  rw [Nat.toString_eq_repr, Nat.toList_repr]
  exact fun c hc => Nat.isDigit_of_mem_toDigits (by decide) (by decide) hc

/-- A number ends before the first character that is no digit. -/
theorem toString_append_inj {m n : Nat} {r s : List Char} (hr : ∀ c ∈ r.head?, c.isDigit = false)
    (hs : ∀ c ∈ s.head?, c.isDigit = false)
    (h : (toString m).toList ++ r = (toString n).toList ++ s) :
    m = n ∧ r = s := by
  have hstop : ∀ t : List Char, (∀ c ∈ t.head?, c.isDigit = false) →
      t.takeWhile Char.isDigit = [] := by
    intro t ht
    cases t with
    | nil => rfl
    | cons c t => rw [List.takeWhile_cons_of_neg (by simp [ht c rfl])]
  have hdigits := congrArg (List.takeWhile Char.isDigit) h
  rw [List.takeWhile_append_of_pos (toString_digits m),
    List.takeWhile_append_of_pos (toString_digits n), hstop r hr, hstop s hs, List.append_nil,
      List.append_nil] at hdigits
  rw [hdigits] at h
  exact ⟨toString_injective hdigits, List.append_cancel_left h⟩

/-- A natural number starts with a digit. -/
theorem toString_head (n : Nat) : ∃ c cs, (toString n).toList = c :: cs ∧ c.isDigit = true := by
  have hne : (toString n).toList ≠ [] := by
    rw [Nat.toString_eq_repr, Nat.toList_repr]
    exact Nat.toDigits_ne_nil
  obtain ⟨c, cs, h⟩ := List.exists_cons_of_ne_nil hne
  exact ⟨c, cs, h, toString_digits n c (by rw [h]; simp)⟩

/-! ## surfaces -/

theorem SurfaceKind.letter_eq (k : SurfaceKind) :
    ∃ c, k.letter.toList = [c] ∧ c.isDigit = false ∧ (c = 'o' ∨ c = 'f' ∨ c = 's' ∨ c = 't') := by
  cases k <;> exact ⟨_, rfl, by decide, by decide⟩

/-- A surface is written as a letter and a number. -/
theorem Surface.toList_name (s : Surface) :
    ∃ c d cs, s.name.toList = c :: d :: cs ∧ d.isDigit = true ∧
    (c = 'o' ∨ c = 'f' ∨ c = 's' ∨ c = 't') := by
  obtain ⟨c, hc, -, hletter⟩ := s.kind.letter_eq
  obtain ⟨d, cs, hd, hdigit⟩ := toString_head s.index
  exact ⟨c, d, cs, by rw [name, String.toList_append, hc, hd]; rfl, hdigit, hletter⟩

/-- Different surfaces have different names. -/
theorem Surface.name_injective : Function.Injective Surface.name := by
  intro s t h
  obtain ⟨k, i⟩ := s
  obtain ⟨l, j⟩ := t
  have hlist := congrArg String.toList h
  simp only [name, String.toList_append] at hlist
  obtain ⟨c, hc, -⟩ := k.letter_eq
  obtain ⟨d, hd, -⟩ := l.letter_eq
  have hkind : k.letter.toList = l.letter.toList := by
    rw [hc, hd] at hlist ⊢
    rw [(List.cons.inj hlist).1]
  have hindex : i = j := by
    rw [hkind] at hlist
    exact toString_injective (List.append_cancel_left hlist)
  have hk : k = l := by
    revert hkind
    cases k <;> cases l <;> decide
  rw [hk, hindex]

theorem Surface.quiet_name (s : Surface) : Quiet s.name.toList := by
  rw [name, String.toList_append]
  exact Quiet.append (by cases s.kind <;> decide) (Quiet.toString _)

/-! ## changing values -/

/-- The text of what a changing value is computed from. -/
def Signal.text : Signal → String
  | .closure s _ => "() => " ++ s
  | .state f => f
  | .oscillator o =>
    o.wave.name ++ "(min: " ++ Number.brief o.min ++ ", max: " ++ Number.brief o.max ++
      ", speed: " ++ Number.brief o.speed ++ ", offset: " ++ Number.brief o.offset ++ ")"

/-- The numbers of an oscillator, which are written to six places. -/
def Signal.hidden : Signal → List Float
  | .oscillator o => [o.min, o.max, o.speed, o.offset]
  | _ => []

/-- A signal that programs have: the formula is that of the source, the field is one of
the state and the wave is known. -/
def Signal.Sound : Signal → Prop
  | .closure source f => Formula.compile? closureScope (source.replace "Math." "") = some f
  | .state field => isStateField field = true
  | .oscillator o => o.wave ∈ Wave.all

namespace Signal

/-- An oscillator is written as its wave, a parenthesis and quiet arguments. -/
theorem toList_oscillator (o : Oscillator) :
    ∃ cs, (Signal.oscillator o).text.toList = o.wave.name.toList ++ '(' :: cs ∧ Quiet cs := by
  refine ⟨_, by simp only [text, String.toList_append, List.append_assoc]; rfl, ?_⟩
  exact Quiet.append (by decide) (.append (.brief _) (.append (by decide) (.append (.brief _)
    (.append (by decide)
      (.append (.brief _) (.append (by decide) (.append (.brief _) (by decide))))))))

theorem wave_cases {w : Wave} (h : w ∈ Wave.all) :
    w = .sine ∨ w = .triangle ∨ w = .saw ∨ w = .square := by
  simpa [Wave.all] using h

theorem field_cases {field : String} (h : isStateField field = true) :
    field = "time" ∨ field = "deltaTime" ∨ field = "frame" ∨ field = "mouseX" ∨ field = "mouseY" ∨
      field = "seed" ∨ field = "width" ∨ field = "height" := by
  simpa [isStateField, stateFields] using h

/-- A signal begins with a parenthesis or a letter, and is told from other values by its
first characters. -/
theorem text_head {σ : Signal} (h : σ.Sound) :
    ∃ c d cs, σ.text.toList = c :: d :: cs ∧ d.isDigit = false ∧ c.isDigit = false ∧
      c ∉ ['"', '#', 'v', '-', '+', 'N', '!', '='] := by
  cases σ with
  | closure s f =>
      exact ⟨'(', ')', _, by simp only [text, String.toList_append]; rfl, by decide, by decide,
        by decide⟩
  | state field =>
    rcases field_cases h with rfl | rfl | rfl | rfl | rfl | rfl | rfl | rfl <;>
      exact ⟨_, _, _, rfl, by decide, by decide, by decide⟩
  | oscillator o =>
    obtain ⟨cs, htext, -⟩ := toList_oscillator o
    rcases wave_cases h with hw | hw | hw | hw <;> rw [hw] at htext <;>
      exact ⟨_, _, _, htext, by decide, by decide, by decide⟩

/-- Sound signals with the same text are the same, up to what is not written. -/
theorem eq_of_text {σ τ : Signal} (hσ : σ.Sound) (hτ : τ.Sound) (hhidden : σ.hidden = τ.hidden)
    (h : σ.text = τ.text) : σ = τ := by
  have hparen : ∀ {field : String}, isStateField field = true → '(' ∉ field.toList := by
    intro field hf
    rcases field_cases hf with rfl | rfl | rfl | rfl | rfl | rfl | rfl | rfl <;> decide
  have hfirst : ∀ {w : Wave}, w ∈ Wave.all → ∀ cs, (w.name.toList ++ '(' :: cs).head? ≠
      some '(' := by
    intro w hw cs
    rcases wave_cases hw with rfl | rfl | rfl | rfl <;> simp [Wave.name]
  cases σ with
  | closure s f =>
    cases τ with
    | closure t g =>
      obtain rfl : s = t := by
        have := congrArg String.toList h
        simp only [text, String.toList_append, List.append_cancel_left_eq] at this
        exact String.toList_inj.1 this
      rw [Option.some.inj (hσ.symm.trans hτ)]
    | state field =>
      refine absurd ?_ (hparen hτ)
      rw [show field = "() => " ++ s from h.symm, String.toList_append]
      exact List.mem_append_left _ (by decide)
    | oscillator o =>
      obtain ⟨cs, htext, -⟩ := toList_oscillator o
      refine absurd ?_ (hfirst hτ cs)
      rw [← htext, ← h, text, String.toList_append]
      rfl
  | state field =>
    cases τ with
    | closure t g =>
      refine absurd ?_ (hparen hσ)
      rw [show field = "() => " ++ t from h, String.toList_append]
      exact List.mem_append_left _ (by decide)
    | state field' => rw [show field = field' from h]
    | oscillator o =>
      obtain ⟨cs, htext, -⟩ := toList_oscillator o
      refine absurd ?_ (hparen hσ)
      rw [show field = (Signal.oscillator o).text from h, htext]
      simp
  | oscillator o =>
    obtain ⟨cs, htext, -⟩ := toList_oscillator o
    cases τ with
    | closure t g =>
      refine absurd ?_ (hfirst hσ cs)
      rw [← htext, h, text, String.toList_append]
      rfl
    | state field' =>
      refine absurd ?_ (hparen hτ)
      rw [show field' = (Signal.oscillator o).text from h.symm, htext]
      simp
    | oscillator o' =>
      obtain ⟨cs', htext', -⟩ := toList_oscillator o'
      have hlist := congrArg String.toList h
      rw [htext, htext'] at hlist
      have hwave : o.wave = o'.wave := by
        have hname := congrArg (List.takeWhile (· ≠ '(')) hlist
        rcases wave_cases hσ with hw | hw | hw | hw <;> rcases wave_cases hτ with hw' | hw' | hw'
          | hw' <;>
          rw [hw, hw'] at hname ⊢ <;> simp [Wave.name] at hname
      obtain ⟨w, a, b, c, d⟩ := o
      obtain ⟨w', a', b', c', d'⟩ := o'
      simp only [hidden, List.cons.injEq, and_true] at hhidden
      dsimp only at hwave
      rw [hwave, hhidden.1, hhidden.2.1, hhidden.2.2.1, hhidden.2.2.2]

end Signal

namespace Dynamic

theorem text_eq (d : Dynamic) :
    d.text = if d.negated then "!(" ++ d.signal.text ++ ")" else d.signal.text := by
  cases hs : d.signal <;> simp [text, hs, Signal.text]

/-- The text of a closure, in a condition perhaps negated, has no place in it where
another field could begin. -/
def isClear (d : Dynamic) : Bool :=
  match d.signal with
  | .closure .. => Fields.isClear d.text.toList
  | _ => true

/-- A changing value is told by its text but for what it hides. -/
theorem eq_of_text {d e : Dynamic} (hd : d.signal.Sound) (he : e.signal.Sound)
    (hmin : d.min = e.min) (hmax : d.max = e.max) (hhidden : d.signal.hidden = e.signal.hidden)
    (h : d.text = e.text) : d = e := by
  obtain ⟨σ, lo, hi, n⟩ := d
  obtain ⟨τ, lo', hi', m⟩ := e
  obtain ⟨c, d, cs, hσ, -, -, hc⟩ := Signal.text_head hd
  obtain ⟨c', d', cs', hτ, -, -, hc'⟩ := Signal.text_head he
  rw [text_eq, text_eq] at h
  dsimp only at *
  have hsame : n = m ∧ σ.text = τ.text := by
    have hlist := congrArg String.toList h
    cases n <;> cases m
    · exact ⟨rfl, h⟩
    · simp [hσ] at hlist
      simp [hlist.1] at hc
    · simp [hτ] at hlist
      simp [← hlist.1] at hc'
    · refine ⟨rfl, String.toList_inj.1 ?_⟩
      simpa using hlist
  rw [hsame.1, Signal.eq_of_text hd he hhidden hsame.2, hmin, hmax]

/-- A changing value can stand in a field. -/
theorem sealed_text {d : Dynamic} (h : d.signal.Sound) (hclear : d.isClear = true) :
    Sealed d.text.toList ∧ Fields.isClear d.text.toList = true := by
  have hall : Fields.isClear d.text.toList = true := by
    have hquiet : Quiet d.signal.text.toList → Quiet d.text.toList := by
      intro hq
      rw [text_eq]
      split
      · rw [String.toList_append, String.toList_append]
        exact Quiet.append (Quiet.append (by decide) hq) (by decide)
      · exact hq
    cases hs : d.signal with
    | closure s f =>
      rw [isClear, hs] at hclear
      exact hclear
    | state field =>
      rw [hs] at h
      refine Quiet.isClear (hquiet ?_)
      rw [hs]
      rcases Signal.field_cases h with rfl | rfl | rfl | rfl | rfl | rfl | rfl | rfl <;> decide
    | oscillator o =>
      rw [hs] at h
      obtain ⟨cs, htext, hcs⟩ := Signal.toList_oscillator o
      refine Quiet.isClear (hquiet ?_)
      rw [hs, htext]
      refine Quiet.append ?_ (Quiet.append (show Quiet ['('] by decide) hcs)
      rcases Signal.wave_cases h with hw | hw | hw | hw <;> rw [hw] <;> decide
  refine ⟨?_, hall⟩
  obtain ⟨c, e, cs, hsignal, -, -, hc⟩ := Signal.text_head h
  have hhead : ∃ c cs, d.text.toList = c :: cs ∧ c ≠ '"' ∧ c ≠ '=' := by
    rw [text_eq]
    split
    · exact ⟨'!', _, by simp only [String.toList_append]; rfl, by decide, by decide⟩
    · simp only [List.mem_cons, not_or] at hc
      exact ⟨c, _, hsignal, hc.1, hc.2.2.2.2.2.2.2.1⟩
  obtain ⟨c, cs, htext, hquote, hequals⟩ := hhead
  rw [htext] at hall ⊢
  exact .clear hquote hequals hall

end Dynamic

/-! ## values -/

/-- The bounds of a changing value for an argument; a truth value has none. -/
def ArgSpec.bounds (a : ArgSpec) : Option Float × Option Float :=
  if a.type = .boolean then (none, none) else (a.min, a.max)

namespace Value

/-- The numbers of a value that its text gives to six places only. -/
def hidden : Value → List Float
  | .vector xs literal => if literal = "" then xs else []
  | .dynamic d => d.signal.hidden
  | _ => []

/-- A value that programs give to an argument: a hex color has the components of its
digits, and a changing value the bounds of the argument. -/
def Fits (a : ArgSpec) : Value → Prop
  | .vector xs literal => literal = "" ∨ ((∃ cs, literal.toList = '#' :: cs) ∧
      Fields.isClear literal.toList = true ∧
      xs = (Parser.colorOf literal).components (Checker.vectorSize a.type))
  | .dynamic d => d.signal.Sound ∧ d.negated = false ∧ (d.min, d.max) = a.bounds
  | _ => True

/-- The closures in a value can stand in a field. -/
def isClear : Value → Bool
  | .dynamic d => d.isClear
  | _ => true

/-- What kind of value a text is of. -/
inductive Kind where
  | scalar
  | boolean
  | text
  | vector
  | ref
  | dynamic
  deriving DecidableEq

def kind : Value → Kind
  | .scalar _ => .scalar
  | .boolean _ => .boolean
  | .text _ => .text
  | .vector .. => .vector
  | .ref _ => .ref
  | .dynamic _ => .dynamic

/-- The kind that the first characters of a text tell. -/
def kindOf : List Char → Kind
  | [] => .scalar
  | c :: cs =>
    if c = '"' then .text
    else if c = '#' || c = 'v' then .vector
    else if c.isDigit || c = '-' || c = '+' || c = 'N' then .scalar
    else if (cs.head?.map Char.isDigit) = some true then .ref
    else if c :: cs = "true".toList || c :: cs = "false".toList then .boolean
    else .dynamic

/-- The text of a number is that of a scalar. -/
theorem kindOf_plain (x : Float) : kindOf (Number.plain x).toList = .scalar := by
  cases hx : Number.isFinite x with
  | true =>
    obtain ⟨c, cs, htext, hc⟩ := Number.plain_head hx
    have hne : c ≠ '"' ∧ c ≠ '#' ∧ c ≠ 'v' := by
      refine ⟨?_, ?_, ?_⟩ <;> rintro rfl <;> exact absurd hc (by decide)
    rw [htext]
    split
    · rfl
    · simp [kindOf, hne, hc]
  | false =>
    obtain ⟨-, h⟩ | ⟨-, -, h⟩ := Number.plain_of_not_isFinite hx <;> rw [h]
    · rfl
    · split <;> rfl

theorem kindOf_name (s : Surface) : kindOf s.name.toList = .ref := by
  obtain ⟨c, d, cs, htext, hd, hc⟩ := s.toList_name
  rw [htext]
  rcases hc with rfl | rfl | rfl | rfl <;> simp [kindOf, hd]

/-- The text of a sound signal is that of a dynamic value. -/
theorem kindOf_text {d : Dynamic} (h : d.signal.Sound) (hn : d.negated = false) :
    kindOf d.text.toList = .dynamic := by
  obtain ⟨c, e, cs, htext, he, hdigit, hc⟩ := Signal.text_head h
  rw [Dynamic.text_eq, hn, if_neg (by decide), htext]
  simp only [List.mem_cons, not_or] at hc
  have htrue : c :: e :: cs ≠ "true".toList ∧ c :: e :: cs ≠ "false".toList := by
    rw [← htext]
    cases hs : d.signal with
    | closure s f => simp [Signal.text]
    | state field =>
      rw [hs] at h
      rcases Signal.field_cases h with rfl | rfl | rfl | rfl | rfl | rfl | rfl | rfl <;> decide
    | oscillator o =>
      obtain ⟨cs, hosc, -⟩ := Signal.toList_oscillator o
      rw [hosc]
      constructor <;> intro heq <;> have := congrArg ('(' ∈ ·) heq <;> simp at this
  unfold kindOf
  dsimp only
  rw [if_neg hc.1, if_neg (by simp [hc]), if_neg (by simp [hc, hdigit]), if_neg (by simp [he]),
    if_neg (by simpa using htrue)]

/-- The text of a value tells its kind. -/
theorem kindOf_shown {a : ArgSpec} {v : Value} (h : v.Fits a) : kindOf v.shown.toList = v.kind := by
  cases v with
  | scalar x => exact kindOf_plain x
  | boolean b => cases b <;> rfl
  | text s =>
    rw [shown, Text.toList_quoteBytes]
    rfl
  | vector xs literal =>
    rw [shown, kind]
    split
    · rw [vectorText]
      simp only [String.toList_append]
      rfl
    · rename_i hne
      obtain rfl | ⟨⟨cs, hcs⟩, -⟩ := h
      · exact absurd rfl hne
      · rw [hcs]
        rfl
  | ref s => exact kindOf_name s
  | dynamic d => exact kindOf_text h.1 h.2.1

/-- The values of an argument are told by their texts but for what they hide. -/
theorem eq_of_shown {a : ArgSpec} {v w : Value} (hv : v.Fits a) (hw : w.Fits a)
    (hhidden : v.hidden = w.hidden) (h : v.shown = w.shown) : v = w := by
  have hkind : v.kind = w.kind := by rw [← kindOf_shown hv, ← kindOf_shown hw, h]
  cases v with
  | scalar x =>
    cases w with
    | scalar y => rw [Number.plain_injective h]
    | _ => cases hkind
  | boolean b =>
    cases w with
    | boolean c =>
      have htext : (if b then "true" else "false") = if c then "true" else "false" := h
      have hbool : b = c := by
        revert htext
        cases b <;> cases c <;> decide
      rw [hbool]
    | _ => cases hkind
  | text s =>
    cases w with
    | text t =>
      have hlist := congrArg (·.toList ++ []) h
      rw [(Text.quoteBytes_append hlist).1]
    | _ => cases hkind
  | vector xs literal =>
    cases w with
    | vector ys literal' =>
      have hmark : ∀ {zs : List Float} {l : String}, l ≠ "" → Fits a (.vector zs l) →
          ∀ us, l ≠ vectorText us := by
        rintro zs l hl hfits us rfl
        obtain ⟨⟨cs, hcs⟩, -⟩ := hfits.resolve_left hl
        simp [vectorText] at hcs
      by_cases hl : literal = ""
      · by_cases hl' : literal' = ""
        · simp only [hidden, hl, hl', if_true] at hhidden
          rw [hl, hl', hhidden]
        · simp only [shown, hl, hl', if_true, if_false] at h
          exact absurd h.symm (hmark hl' hw xs)
      · by_cases hl' : literal' = ""
        · simp only [shown, hl, hl', if_true, if_false] at h
          exact absurd h (hmark hl hv ys)
        · simp only [shown, hl, hl', if_false] at h
          obtain rfl := h
          rw [(hv.resolve_left hl).2.2, (hw.resolve_left hl).2.2]
    | _ => cases hkind
  | ref s =>
    cases w with
    | ref t => rw [Surface.name_injective h]
    | _ => cases hkind
  | dynamic d =>
    cases w with
    | dynamic e =>
      have hbounds := hv.2.2.trans hw.2.2.symm
      rw [Prod.mk.injEq] at hbounds
      rw [Dynamic.eq_of_text hv.1 hw.1 hbounds.1 hbounds.2 hhidden h]
    | _ => cases hkind

/-- A vector is written quietly. -/
theorem quiet_vectorText (xs : List Float) : Quiet (vectorText xs).toList := by
  rw [vectorText]
  simp only [String.toList_append, String.toList_intercalate]
  refine Quiet.append (.append (.append (.append (by decide) (.toString _)) (by decide)) ?_)
    (by decide)
  refine Quiet.intercalate (by decide) ?_
  intro l hl
  simp only [List.map_map, List.mem_map, Function.comp_apply] at hl
  obtain ⟨x, -, rfl⟩ := hl
  exact .brief x

/-- A value can stand in a field. -/
theorem sealed_shown {a : ArgSpec} {v : Value} (h : v.Fits a) (hclear : v.isClear = true) :
    Sealed v.shown.toList := by
  have hquiet : ∀ {cs : List Char} {k : Kind}, kindOf cs = k → k ≠ .text → cs ≠ [] → Quiet cs →
      Sealed cs := by
    intro cs k hk hne hnil hcs
    obtain ⟨c, cs, rfl⟩ := List.exists_cons_of_ne_nil hnil
    refine .clear ?_ (hcs c (by simp)).2 hcs.isClear
    rintro rfl
    exact hne hk.symm
  have hkind := kindOf_shown h
  cases v with
  | scalar x =>
    refine hquiet hkind (by simp [kind]) ?_ (.plain x)
    exact Number.plain_ne_nil x
  | boolean b => cases b <;> exact hquiet hkind (by simp [kind]) (by decide) (by decide)
  | text s => exact .quoted s
  | vector xs literal =>
    by_cases hl : literal = ""
    · rw [shown, if_pos hl] at hkind ⊢
      refine hquiet hkind (by simp [kind]) ?_ (quiet_vectorText xs)
      simp [vectorText]
    · obtain ⟨⟨cs, hcs⟩, hclear, -⟩ := h.resolve_left hl
      rw [shown, if_neg hl, hcs]
      rw [hcs] at hclear
      exact .clear (by decide) (by decide) hclear
  | ref s =>
    refine hquiet hkind (by simp [kind]) ?_ s.quiet_name
    obtain ⟨c, d, cs, htext, -⟩ := s.toList_name
    simp [shown, htext]
  | dynamic d => exact (Dynamic.sealed_text h.1 hclear).1

end Value

end EffectChain
