/-!
# EffectChain.Text.Utf8

Source text is a sequence of bytes.  Reading it as UTF-8 never fails: bytes
that are not part of a well-formed character stand for themselves, one by one.

* `glyphs` reads a byte sequence as characters and stray bytes;
* `decode` shows it as characters, a stray byte as the replacement character;
* `encode` writes characters as bytes;
* `byteChar` keeps a byte in a string where it is part of no character, and `Text.legible`
  shows such bytes as they read together.

Every step of `glyphs` takes at least one byte and at most what is there, and
the texts of the glyphs concatenate to the bytes they were read from
(`flatMap_bytes_glyphs`).
-/

namespace EffectChain

/-- A text as it is stored: any sequence of bytes. -/
abbrev Bytes := List UInt8

/-- One unit of a text: a character, or a byte that belongs to none. -/
inductive Glyph where
  | char (c : Char) (raw : Bytes)
  | stray (b : UInt8)
  deriving DecidableEq, Repr, Inhabited

namespace Glyph

/-- The bytes the glyph was read from. -/
def bytes : Glyph → Bytes
  | .char _ raw => raw
  | .stray b => [b]

/-- The character shown for the glyph; a stray byte shows as U+FFFD. -/
def toChar : Glyph → Char
  | .char c _ => c
  | .stray _ => '\ufffd'

end Glyph

namespace Utf8

/-- Continuation bytes carry six bits each. -/
def isTail (b : UInt8) : Bool := 0x80 ≤ b && b ≤ 0xBF

/-- The low six bits of a continuation byte. -/
def tailBits (b : UInt8) : Nat := b.toNat % 64

/-- Whether `b` may follow the first byte `a` of a character of three or four
bytes: overlong forms, surrogates and values above U+10FFFF are excluded here. -/
def secondFits (a b : UInt8) : Bool :=
  if a = 0xE0 then 0xA0 ≤ b && b ≤ 0xBF
  else if a = 0xED then 0x80 ≤ b && b ≤ 0x9F
  else if a = 0xF0 then 0x90 ≤ b && b ≤ 0xBF
  else if a = 0xF4 then 0x80 ≤ b && b ≤ 0x8F
  else isTail b

/-- The glyph that starts with byte `a`, given the bytes after it. -/
def glyphAt (a : UInt8) (rest : Bytes) : Glyph :=
  if a < 0x80 then .char (Char.ofNat a.toNat) [a]
  else if 0xC2 ≤ a && a ≤ 0xDF then
    match rest with
    | b :: _ =>
      if isTail b then .char (Char.ofNat ((a.toNat % 32) * 64 + tailBits b)) [a, b] else .stray a
    | _ => .stray a
  else if 0xE0 ≤ a && a ≤ 0xEF then
    match rest with
    | b :: c :: _ =>
      if secondFits a b && isTail c then
        .char (Char.ofNat ((a.toNat % 16) * 4096 + tailBits b * 64 + tailBits c)) [a, b, c]
      else .stray a
    | _ => .stray a
  else if 0xF0 ≤ a && a ≤ 0xF4 then
    match rest with
    | b :: c :: d :: _ =>
      if secondFits a b && isTail c && isTail d then
        .char (Char.ofNat ((a.toNat % 8) * 262144 + tailBits b * 4096 + tailBits c * 64 +
          tailBits d))
          [a, b, c, d]
      else .stray a
    | _ => .stray a
  else .stray a

/-- A glyph is read from the front of the bytes at hand and takes its first. -/
theorem exists_bytes_glyphAt (a : UInt8) (rest : Bytes) :
    ∃ more, (glyphAt a rest).bytes = a :: more ∧ more <+: rest := by
  unfold glyphAt
  repeat' split
  all_goals simp_all [Glyph.bytes, List.nil_prefix]

theorem length_drop_glyphAt (a : UInt8) (rest : Bytes) :
    ((a :: rest).drop (glyphAt a rest).bytes.length).length < (a :: rest).length := by
  obtain ⟨more, h, -⟩ := exists_bytes_glyphAt a rest
  simp only [h, List.length_cons, List.drop_succ_cons, List.length_drop]
  omega

/-- Reads bytes as characters and stray bytes. -/
def glyphs : Bytes → List Glyph
  | [] => []
  | a :: rest => glyphAt a rest :: glyphs ((a :: rest).drop (glyphAt a rest).bytes.length)
termination_by bs => bs.length
decreasing_by exact length_drop_glyphAt a rest

@[simp] theorem glyphs_nil : glyphs [] = [] := by rw [glyphs]

theorem glyphs_cons (a : UInt8) (rest : Bytes) :
    glyphs (a :: rest) =
      glyphAt a rest :: glyphs ((a :: rest).drop (glyphAt a rest).bytes.length) := by
  rw [glyphs]

/-- Reading loses no byte. -/
theorem flatMap_bytes_glyphs (bs : Bytes) : (glyphs bs).flatMap Glyph.bytes = bs := by
  fun_induction glyphs bs with
  | case1 => rfl
  | case2 a rest ih =>
    obtain ⟨more, h, t, ht⟩ := exists_bytes_glyphAt a rest
    simp only [List.flatMap_cons, ih]
    subst ht
    simp [h]

/-- The characters of a text, a stray byte as the replacement character. -/
def decode (bs : Bytes) : List Char := (glyphs bs).map Glyph.toChar

/-- The bytes of a list of characters. -/
def encode (cs : List Char) : Bytes := cs.flatMap String.utf8EncodeChar

/-- The character that keeps a byte by itself.  For a byte beyond ASCII it is one of the last
private characters. -/
def byteChar (b : UInt8) : Char :=
  if b < 0x80 then Char.ofNat b.toNat else Char.ofNat (0x10FE00 + b.toNat)

/-- The bytes of a character, which is one byte for a character that keeps it. -/
def bytesOf (c : Char) : Bytes :=
  if 0x10FE80 ≤ c.toNat ∧ c.toNat < 0x10FF00 then [(c.toNat - 0x10FE00).toUInt8]
    else String.utf8EncodeChar c

/-- A byte that is kept is not lost. -/
theorem bytesOf_byteChar (b : UInt8) : bytesOf (byteChar b) = [b] := by
  have hall : ∀ n < 256, bytesOf (byteChar n.toUInt8) = [n.toUInt8] := by decide +kernel
  simpa using hall b.toNat b.toNat_lt

theorem byteChar_injective : Function.Injective byteChar := by
  intro a b h
  simpa [bytesOf_byteChar] using congrArg bytesOf h

end Utf8

/-- The bytes of a string. -/
def Bytes.ofString (s : String) : Bytes := Utf8.encode s.toList

/-- The bytes of a string that is given by its characters, as a literal is. -/
theorem Bytes.ofString_ofList (cs : List Char) :
    Bytes.ofString (String.ofList cs) = Utf8.encode cs := by
  rw [ofString, String.toList_ofList]

/-- The string that shows a byte sequence. -/
def Bytes.toString (bs : Bytes) : String := String.ofList (Utf8.decode bs)

/-- The string with the bytes that are kept in it shown as they read together. -/
def Text.legible (s : String) : String := Bytes.toString (s.toList.flatMap Utf8.bytesOf)

/-- The bytes of an ASCII character, as a pattern for scanning. -/
def Bytes.ofChar (c : Char) : UInt8 := c.toNat.toUInt8

end EffectChain
