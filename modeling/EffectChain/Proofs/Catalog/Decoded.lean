import EffectChain.Catalog.File
import EffectChain.Proofs.Data.Table

/-!
# EffectChain.Proofs.Catalog.Decoded

What holds of every declaration that a catalog file gives (`accepted_of_decode`): its
passes run programs it declares and have outputs, its passes render or compute,
workgroups are not empty, and no texture has a negative size.

The sizes are checked where a texture is read, all else where a file adopts a
declaration.
-/

namespace EffectChain

/-! ## reading lists and tables -/

theorem exists_of_mem_mapM {α β : Type} {f : α → Option β} :
    ∀ {xs : List α} {ys : List β}, xs.mapM f = some ys → ∀ {y : β}, y ∈ ys → ∃ x ∈ xs, f x = some y
  | [], ys, h, y, hy => by
      simp only [List.mapM_nil, pure, Option.some.injEq] at h
      simp [← h] at hy
  | x :: xs, ys, h, y, hy => by
      simp only [List.mapM_cons, bind, pure, Option.bind_eq_some_iff, Option.some.injEq] at h
      obtain ⟨y', hx, ys', hxs, rfl⟩ := h
      rcases List.mem_cons.1 hy with rfl | hy
      · exact ⟨x, List.mem_cons_self, hx⟩
      · obtain ⟨a, ha, hay⟩ := exists_of_mem_mapM hxs hy
        exact ⟨a, List.mem_cons_of_mem x ha, hay⟩

namespace CatalogFile

variable {α : Type} {f : Document → Option α} {d : Document}

/-- The elements of a list that was read were read. -/
theorem read_of_mem_list {xs : List α} (h : list? f d = some xs) {x : α} (hx : x ∈ xs) :
    ∃ d, f d = some x := by
  unfold list? at h
  split at h
  · simp [← Option.some.inj h] at hx
  · obtain ⟨a, -, ha⟩ := exists_of_mem_mapM h hx
    exact ⟨a, ha⟩
  · simp at h

/-- The values of a table that was read were read. -/
theorem read_of_mem_table {t : Table α} (h : table? f d = some t) {k : String} {x : α}
    (hx : t.get? k = some x) : ∃ d, f d = some x := by
  unfold table? at h
  split at h
  · simp [← Option.some.inj h] at hx
  · next es =>
      obtain ⟨es', hes', rfl⟩ := Option.map_eq_some_iff.1 h
      have hmem : (k, x) ∈ es' := Table.mem_of_get?_ofList hx
      obtain ⟨e, -, he⟩ := exists_of_mem_mapM hes' hmem
      obtain ⟨a, ha, heq⟩ := Option.map_eq_some_iff.1 he
      exact ⟨e.2, by rw [ha, (Prod.mk.inj heq).2]⟩
  · simp at h

end CatalogFile

/-! ## sizes of textures -/

/-- No size of the texture is negative. -/
structure TextureSpec.Sized (s : TextureSpec) : Prop where
  width : 0 ≤ s.width
  height : 0 ≤ s.height
  depth : 0 ≤ s.depth

namespace TextureSpec

theorem Sized.surface : surface.Sized := ⟨by decide, by decide, by decide⟩

theorem Sized.plainVolume : plainVolume.Sized := ⟨by decide, by decide, by decide⟩

/-- In a viewport that has a size, no size of the texture is empty. -/
theorem Sized.pos {s : TextureSpec} (hs : s.Sized) {w h : Int} (hw : 0 < w) (hh : 0 < h) :
    1 ≤ (s.sized w h).width ∧ 1 ≤ (s.sized w h).height ∧ 1 ≤ (s.sized w h).depth := by
  have hwidth := hs.width
  have hheight := hs.height
  have hdepth := hs.depth
  unfold sized
  dsimp only
  refine ⟨?_, ?_, ?_⟩ <;> split <;> omega

/-- A texture that is read has its sizes from the one it starts from when they are not
given, and its dimension in any case. -/
theorem exists_of_read {base s : TextureSpec} {d : Document}
    (h : CatalogFile.texture? base d = some s) :
    ∃ (format : TextureFormat) (w h z : Int), 0 ≤ w ∧ 0 ≤ h ∧ 0 ≤ z ∧
      s = { base with
        format
        width := if w > 0 then w else base.width
        height := if h > 0 then h else base.height
        depth := if z > 0 then z else base.depth } := by
  unfold CatalogFile.texture? at h
  simp only [bind, Option.bind_eq_some_iff] at h
  obtain ⟨fields, -, name, -, h⟩ := h
  have hread : ∃ (format : TextureFormat) (w h' z : Int),
      (if (w < 0 || h' < 0 || z < 0) = true then none
        else some { base with
          format
          width := if w > 0 then w else base.width
          height := if h' > 0 then h' else base.height
          depth := if z > 0 then z else base.depth }) = some s := by
    split at h <;> simp only [Option.bind_eq_some_iff] at h
    all_goals
      obtain ⟨format, -, w, -, h', -, z, -, h⟩ := h
      exact ⟨format, w, h', z, h⟩
  clear h
  obtain ⟨format, w, h', z, h⟩ := hread
  split at h
  · simp at h
  · next hneg =>
      simp only [Bool.or_eq_true, decide_eq_true_eq, not_or, Int.not_lt] at hneg
      obtain ⟨⟨hw, hh⟩, hz⟩ := hneg
      exact ⟨format, w, h', z, hw, hh, hz, (Option.some.inj h).symm⟩

/-- A texture that is read has sizes. -/
theorem sized_of_read {base s : TextureSpec} (hbase : base.Sized) {d : Document}
    (h : CatalogFile.texture? base d = some s) : s.Sized := by
  obtain ⟨format, w, h', z, hw, hh, hz, rfl⟩ := exists_of_read h
  refine ⟨?_, ?_, ?_⟩
  · dsimp only
    split
    · exact hw
    · exact hbase.width
  · dsimp only
    split
    · exact hh
    · exact hbase.height
  · dsimp only
    split
    · exact hz
    · exact hbase.depth

end TextureSpec

/-! ## declarations -/

/-- What holds of a declaration that was accepted. -/
structure Descriptor.Accepted (d : Descriptor) : Prop where
  program : ∀ p ∈ d.passes, d.programs.contains p.program = true
  kind : ∀ p ∈ d.passes, p.kind = .render ∨ p.kind = .compute
  outputs : ∀ p ∈ d.passes, p.outputs.entries ≠ []
  workgroup : ∀ p ∈ d.passes, ∀ n ∈ p.workgroup, 1 ≤ n
  textures : ∀ name s, d.textures.get? name = some s → s.Sized
  volumes : ∀ name s, d.volumes.get? name = some s → s.Sized

namespace Descriptor

/-- A declared texture of an accepted declaration has sizes. -/
theorem Accepted.sized {d : Descriptor} (h : d.Accepted) {name : String} {s : TextureSpec}
    (hs : (name, s) ∈ d.textures.entries ++ d.volumes.entries) : s.Sized := by
  rcases List.mem_append.1 hs with hs | hs
  · exact h.textures name s (Table.mem_entries_iff.1 hs)
  · exact h.volumes name s (Table.mem_entries_iff.1 hs)

/-- A declaration without a fault is accepted when its textures have sizes. -/
theorem accepted_of_fault? {d : Descriptor} (h : d.fault? = none)
    (htextures : ∀ name s, d.textures.get? name = some s → s.Sized)
    (hvolumes : ∀ name s, d.volumes.get? name = some s → s.Sized) : d.Accepted := by
  have hpasses : ∀ p ∈ d.passes, ∃ i, d.passFault? i p = none := by
    intro p hp
    obtain ⟨i, hi⟩ := List.getElem?_of_mem hp
    unfold fault? at h
    split at h
    · simp at h
    · split at h
      · simp at h
      · split at h
        · simp at h
        · split at h
          · simp at h
          · exact ⟨i, List.findSome?_eq_none_iff.1 h (p, i) (List.mem_zipIdx_iff_getElem?.2 hi)⟩
  have hpass : ∀ p ∈ d.passes, d.programs.contains p.program = true ∧
      (p.kind = .render ∨ p.kind = .compute) ∧ p.outputs.isEmpty = false ∧
      p.workgroup.any (· < 1) = false := by
    intro p hp
    obtain ⟨i, hi⟩ := hpasses p hp
    unfold passFault? at hi
    split at hi
    · simp at hi
    · next hprogram =>
        have hprogram : d.programs.contains p.program = true := by simpa using hprogram
        refine ⟨hprogram, ?_⟩
        cases hkind : p.kind <;> simp only [hkind] at hi
        case other => simp at hi
        all_goals
          split at hi
          · simp at hi
          · next houtputs =>
              split at hi
              · simp at hi
              · next hworkgroup =>
                  exact ⟨by simp, by simpa using houtputs, by simpa using hworkgroup⟩
  refine ⟨fun p hp => (hpass p hp).1, fun p hp => (hpass p hp).2.1, fun p hp => ?_,
    fun p hp n hn => ?_, htextures, hvolumes⟩
  · simpa [Table.isEmpty] using (hpass p hp).2.2.1
  · have hall := (hpass p hp).2.2.2
    simp only [List.any_eq_false, decide_eq_true_eq, Int.not_lt] at hall
    exact hall n hn

end Descriptor

/-! ## files -/

namespace CatalogFile

/-- The textures of a declaration that is read were read, each from the texture it starts
from. -/
theorem texture_of_descriptor {d : Document} {r : Descriptor} (h : descriptor? d = some r) :
    (∀ name s, r.textures.get? name = some s → ∃ a, texture? .surface a = some s) ∧
      ∀ name s, r.volumes.get? name = some s → ∃ a, texture? .plainVolume a = some s := by
  unfold descriptor? at h
  -- the fields before the textures, and those after the volumes
  iterate 9 obtain ⟨_, -, h⟩ := Option.bind_eq_some_iff.1 h
  obtain ⟨textures, htextures, h⟩ := Option.bind_eq_some_iff.1 h
  obtain ⟨volumes, hvolumes, h⟩ := Option.bind_eq_some_iff.1 h
  iterate 3 obtain ⟨_, -, h⟩ := Option.bind_eq_some_iff.1 h
  obtain rfl := Option.some.inj h
  exact ⟨fun name s hs => read_of_mem_table htextures hs, fun name s hs =>
    read_of_mem_table hvolumes hs⟩

/-- The effects of a file are its declarations without a fault, in the namespace of the file. -/
theorem read_of_effectsOf (space flag origin : String) :
    ∀ (rs : List (Option Descriptor)) (ds : List Descriptor),
    effectsOf space flag origin rs = .ok ds →
      ∀ d ∈ ds, d.fault? = none ∧ ∃ r, some r ∈ rs ∧ d = adopt space flag r
  | [], ds, h, d, hd => by
      rw [effectsOf, Except.ok.injEq] at h
      simp [← h] at hd
  | none :: rs, ds, h, _, _ => by simp [effectsOf] at h
  | some r :: rs, ds, h, d, hd => by
      rw [effectsOf] at h
      split at h
      · simp at h
      · next hfault =>
          simp only [bind, Except.bind, pure, Except.pure] at h
          split at h
          · simp at h
          · next ds' hds' =>
              rw [← Except.ok.inj h] at hd
              rcases List.mem_cons.1 hd with rfl | hd
              · exact ⟨hfault, r, List.mem_cons_self, rfl⟩
              · obtain ⟨hnone, r', hr', heq⟩ := read_of_effectsOf space flag origin rs ds' hds' d hd
                exact ⟨hnone, r', List.mem_cons_of_mem _ hr', heq⟩

/-- The file of a document with one effect. -/
theorem decode_single {text origin space flag : String} {enums : List (String × Document)}
    {doc : Document} {d : Descriptor} (hread : Document.read? text = some doc)
    (hparts : parts? doc = some (space, flag, enums, [some d])) (hspace : space ≠ "")
    (hfault : (adopt space flag d).fault? = none) :
    decode text origin = .ok ⟨space, flag, enums, [adopt space flag d], origin⟩ := by
  rw [decode, hread]
  simp only [ofDocument, hparts, if_neg hspace, effectsOf, hfault]
  rfl

/-- Every declaration of a catalog file was read, in the namespace of the file, and has no
fault. -/
theorem read_of_decode {text origin : String} {file : CatalogFile}
    (h : decode text origin = .ok file) {d : Descriptor} (hd : d ∈ file.effects) :
    d.fault? = none ∧ ∃ space flag a r, descriptor? a = some r ∧ d = adopt space flag r := by
  unfold decode at h
  split at h
  · simp at h
  · next doc hdoc =>
      unfold ofDocument at h
      split at h
      · simp at h
      · next space flag enums effects hparts =>
          split at h
          · simp at h
          · simp only [bind, Except.bind, pure, Except.pure] at h
            split at h
            · simp at h
            · next ds hds =>
                rw [← Except.ok.inj h] at hd
                obtain ⟨hfault, r, hr, heq⟩ :=
                  read_of_effectsOf space flag origin effects ds hds d hd
                unfold parts? at hparts
                simp only [bind, pure, Option.bind_eq_some_iff, Option.some.injEq] at hparts
                obtain ⟨fields, -, space', -, flag', -, enums', -, rs, hrs, hrest⟩ := hparts
                simp only [Prod.mk.injEq] at hrest
                obtain ⟨-, -, -, rfl⟩ := hrest
                obtain ⟨a, ha⟩ := read_of_mem_list hrs hr
                have hread : ∃ b, descriptor? b = some r := by
                  unfold optional? at ha
                  split at ha
                  · simp at ha
                  · next b hb =>
                      obtain ⟨r', hr', heq⟩ := Option.map_eq_some_iff.1 ha
                      exact ⟨_, hr'.trans heq⟩
                obtain ⟨b, hb⟩ := hread
                exact ⟨hfault, space, flag, b, r, hb, heq⟩

/-- Every texture that a catalog file declares was read. -/
theorem texture_of_decode {text origin : String} {file : CatalogFile}
    (h : decode text origin = .ok file) {d : Descriptor} (hd : d ∈ file.effects) :
    (∀ name s, d.textures.get? name = some s → ∃ a, texture? .surface a = some s) ∧
      ∀ name s, d.volumes.get? name = some s → ∃ a, texture? .plainVolume a = some s := by
  obtain ⟨-, space, flag, a, r, hread, rfl⟩ := read_of_decode h hd
  exact texture_of_descriptor (r := r) hread

/-- Every declaration of a catalog file is accepted. -/
theorem accepted_of_decode {text origin : String} {file : CatalogFile}
    (h : decode text origin = .ok file) {d : Descriptor} (hd : d ∈ file.effects) : d.Accepted := by
  obtain ⟨htextures, hvolumes⟩ := texture_of_decode h hd
  refine Descriptor.accepted_of_fault? (read_of_decode h hd).1 (fun name s hs => ?_)
    fun name s hs => ?_
  · obtain ⟨a, ha⟩ := htextures name s hs
    exact TextureSpec.sized_of_read .surface ha
  · obtain ⟨a, ha⟩ := hvolumes name s hs
    exact TextureSpec.sized_of_read .plainVolume ha

end CatalogFile

end EffectChain
