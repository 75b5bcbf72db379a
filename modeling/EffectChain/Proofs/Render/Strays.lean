import EffectChain.Proofs.Render.Inventory
import EffectChain.Proofs.Render.Transcript

/-!
# EffectChain.Proofs.Render.Strays

Textures about which a renderer and its backend disagree.

A renderer forgets a texture that it gives back even when the backend refuses to destroy
it, and such a texture leaks.  It keeps a texture in mind that it could not make anew for
another size, and such a texture is lost.  Both can be read off the answers of the backend
(`Strays.given`, `Strays.remade`), and nothing else makes the two disagree.

* `Straying.reconciled` — after every call, the strays are those of the transcript;
* `strays_of_transcript` — so the textures agree if and only if there are no strays, and a
  backend that recovers helps if and only if no stray is in the way.
-/

namespace EffectChain

/-- The textures about which a renderer and its backend disagree. -/
structure Strays where
  /-- The backend holds them, and the renderer does not remember them. -/
  leaked : List String := []
  /-- The renderer remembers them, and the backend does not hold them. -/
  lost : List String := []
  deriving DecidableEq, Repr

namespace Strays

/-- The texture is lost no more. -/
def found (s : Strays) (id : String) : Strays := { s with lost := s.lost.filter (· ≠ id) }

/-- What an exchange changes when textures are made for a graph or given back: one that
cannot be destroyed is forgotten all the same. -/
def given (s : Strays) : Exchange → Strays
  | (.createTexture id _, none) => s.found id
  | (.destroyTexture id, none) => s.found id
  | (.destroyTexture id, some _) =>
      if id ∈ s.lost then s.found id else { s with leaked := id :: s.leaked }
  | _ => s

/-- What an exchange changes when textures are made anew for another size: one that is
destroyed is lost until it is made again. -/
def remade (s : Strays) : Exchange → Strays
  | (.createTexture id _, none) => s.found id
  | (.destroyTexture id, none) => { s with lost := id :: s.lost }
  | _ => s

@[simp] theorem mem_lost_found {s : Strays} {id a : String} :
    a ∈ (s.found id).lost ↔ a ∈ s.lost ∧ a ≠ id := by
  simp [found]

@[simp] theorem leaked_found (s : Strays) (id : String) : (s.found id).leaked = s.leaked := rfl

end Strays

open Stocked

/-- The backend destroys only what it holds. -/
def Strict (β : Type) [Backend β] [Stocked β] : Prop :=
  ∀ {b b' : β} {id : String}, Backend.submit b (.destroyTexture id) = (b', none) →
    (stock b).textures.contains id = true

theorem Recorder.strict : Strict Recorder := by
  intro r r' id h
  rcases submit_cases r (.destroyTexture id) with ⟨r₁, refusal, hr, -⟩ | ⟨r₁, hheld, heffect⟩
  · exact absurd (hr.symm.trans h) (by simp)
  · have hgone : r₁.effect (.destroyTexture id) = (r', none) := heffect.symm.trans h
    show r.held.textures.contains id = true
    rw [← hheld]
    cases habsent : r₁.textures.contains id with
    | true => exact habsent
    | false => simp [effect, habsent] at hgone

/-- What never fails, never fails when it is written down. -/
theorem Unfailing.scribe {β : Type} [Backend β] {works : β → Prop} {held : β → Table TextureSpec}
    (hb : Unfailing works held) : Unfailing (fun b : Scribe β => works b.inner) fun b =>
      held b.inner where
  creates {b id} spec hworks hnew := by
    obtain ⟨inner, hsub, hafter⟩ := hb.creates spec hworks hnew
    exact ⟨⟨inner, b.log ++ [_]⟩, Scribe.submit_eq_iff.2 ⟨hsub, rfl⟩, hafter⟩
  destroys {b id} hworks hheld := by
    obtain ⟨inner, hsub, hafter⟩ := hb.destroys hworks hheld
    exact ⟨⟨inner, b.log ++ [_]⟩, Scribe.submit_eq_iff.2 ⟨hsub, rfl⟩, hafter⟩
  spares {b c} hworks hc := hb.spares (b := b.inner) hworks hc
  prepares {b c} hworks hc := hb.prepares (b := b.inner) hworks hc

namespace Executor

variable {β : Type} [Backend β] [Stocked β] {e e' e'' : Executor (Scribe β)} {s : Strays}
    {g : Graph}
  {alloc : Option Graph.Allocation} {f : Strays → Exchange → Strays}

/-- The strays are just the textures about which the renderer and its backend disagree. -/
structure Reconciled (e : Executor (Scribe β)) (s : Strays) : Prop where
  leaked : ∀ id ∈ s.leaked, e.textures.contains id = false ∧ e.stock.textures.contains id = true
  lost : ∀ id ∈ s.lost, e.textures.contains id = true ∧ e.stock.textures.contains id = false
  others : ∀ id, id ∉ s.leaked → id ∉ s.lost → e.textures.contains id = e.stock.textures.contains id

namespace Reconciled

/-- With the same textures and stock the strays are the same. -/
theorem of_same (h : Reconciled e s) (htextures : e'.textures = e.textures)
    (hstock : e'.stock.textures = e.stock.textures) : Reconciled e' s := by
  constructor
  · rw [htextures, hstock]; exact h.leaked
  · rw [htextures, hstock]; exact h.lost
  · rw [htextures, hstock]; exact h.others

theorem not_leaked_of_tracked (h : Reconciled e s) {id : String}
    (htracked : e.textures.contains id = true) :
    id ∉ s.leaked := fun hid => by simp [(h.leaked id hid).1] at htracked

/-- Nothing has changed about any other texture. -/
def Elsewhere (id : String) (e e' : Executor (Scribe β)) : Prop :=
  ∀ a, a ≠ id → e'.textures.contains a = e.textures.contains a ∧
    e'.stock.textures.contains a = e.stock.textures.contains a

variable {id : String}

/-- The two agree about a texture again. -/
theorem found (h : Reconciled e s) (hid : id ∉ s.leaked) (helse : Elsewhere id e e')
    (hagree : e'.textures.contains id = e'.stock.textures.contains id) :
    Reconciled e' (s.found id) := by
  constructor
  · intro a ha
    have hne : a ≠ id := by rintro rfl; exact hid ha
    rw [(helse a hne).1, (helse a hne).2]
    exact h.leaked a ha
  · intro a ha
    obtain ⟨ha, hne⟩ := Strays.mem_lost_found.1 ha
    rw [(helse a hne).1, (helse a hne).2]
    exact h.lost a ha
  · intro a hl hlost
    by_cases hne : a = id
    · rw [hne, hagree]
    · rw [(helse a hne).1, (helse a hne).2]
      exact h.others a hl fun ha => hlost (Strays.mem_lost_found.2 ⟨ha, hne⟩)

/-- A texture is forgotten that the backend keeps. -/
theorem leak (h : Reconciled e s) (hid : id ∉ s.lost) (helse : Elsewhere id e e')
    (huntracked : e'.textures.contains id = false) (hheld : e'.stock.textures.contains id = true) :
    Reconciled e' { s with leaked := id :: s.leaked } := by
  constructor
  · intro a ha
    by_cases hne : a = id
    · exact hne ▸ ⟨huntracked, hheld⟩
    · rw [(helse a hne).1, (helse a hne).2]
      exact h.leaked a (List.mem_of_ne_of_mem hne ha)
  · intro a ha
    have hne : a ≠ id := by rintro rfl; exact hid ha
    rw [(helse a hne).1, (helse a hne).2]
    exact h.lost a ha
  · intro a hl hlost
    obtain ⟨hne, hl⟩ := not_or.1 fun hor => hl (List.mem_cons.2 hor)
    rw [(helse a hne).1, (helse a hne).2]
    exact h.others a hl hlost

/-- A texture is kept in mind that the backend no longer holds. -/
theorem lose (h : Reconciled e s) (hid : id ∉ s.leaked) (helse : Elsewhere id e e')
    (htracked : e'.textures.contains id = true) (habsent : e'.stock.textures.contains id = false) :
    Reconciled e' { s with lost := id :: s.lost } := by
  constructor
  · intro a ha
    have hne : a ≠ id := by rintro rfl; exact hid ha
    rw [(helse a hne).1, (helse a hne).2]
    exact h.leaked a ha
  · intro a ha
    by_cases hne : a = id
    · exact hne ▸ ⟨htracked, habsent⟩
    · rw [(helse a hne).1, (helse a hne).2]
      exact h.lost a (List.mem_of_ne_of_mem hne ha)
  · intro a hl hlost
    obtain ⟨hne, hlost⟩ := not_or.1 fun hor => hlost (List.mem_cons.2 hor)
    rw [(helse a hne).1, (helse a hne).2]
    exact h.others a hl hlost

end Reconciled

/-- The exchanges of a call account for the strays after it. -/
def Accounts (f : Strays → Exchange → Strays) (e e' : Executor (Scribe β)) : Prop :=
  ∃ xs, e'.backend.log = e.backend.log ++ xs ∧ ∀ s, Reconciled e s → Reconciled e' (xs.foldl f s)

namespace Accounts

theorem same (hbackend : e'.backend = e.backend) (htextures : e'.textures = e.textures) :
    Accounts f e e' :=
  ⟨[], by simp [hbackend], fun _ h => h.of_same htextures (by rw [stock, hbackend, stock])⟩

/-- Two steps account for what each of them does. -/
theorem trans (h : Accounts f e e') (h' : Accounts f e' e'') : Accounts f e e'' := by
  obtain ⟨xs, hlog, hxs⟩ := h
  obtain ⟨ys, hlog', hys⟩ := h'
  refine ⟨xs ++ ys, by rw [hlog', hlog, List.append_assoc], fun s hs => ?_⟩
  rw [List.foldl_append]
  exact hys _ (hxs s hs)

/-- What else is noted of the renderer does not matter. -/
theorem of_same (h : Accounts f e' e'') (hbackend : e'.backend = e.backend)
    (htextures : e'.textures = e.textures) :
    Accounts f e e'' :=
  (Accounts.same hbackend htextures).trans h

/-- A request that is about no texture. -/
theorem idle {c : Request} {r : Option Refusal} (hf : ∀ s r, f s (c, r) = s)
    (hc : ∀ s : Stock, (s.after c).textures = s.textures) (h : e.submit c = (e', r)) :
    Accounts f e e' := by
  have hlog := (Logs.submit h).log
  have hstock : e'.stock.textures = e.stock.textures := by
    cases r with
    | none => rw [submit_accepted h, hc]
    | some r => rw [submit_refused h]
  obtain ⟨hsame, -⟩ := submit_backend h
  refine ⟨_, hlog, fun s hs => ?_⟩
  show Reconciled e' (f s (c, r))
  rw [hf]
  exact hs.of_same (by rw [hsame]) hstock

end Accounts

/-! ## textures that are made and given back -/

/-- A texture that is made is remembered and held. -/
theorem createTexture_accounts {t : String × TextureSpec} (h : e.createTexture t = (e', none)) :
    Accounts Strays.given e e' ∧ e.stock.textures.contains t.1 = false ∧
      (∀ a, e'.textures.contains a = (decide (a = t.1) || e.textures.contains a)) ∧
      ∀ a, e'.stock.textures.contains a = (decide (a = t.1) || e.stock.textures.contains a) := by
  obtain ⟨e₁, hsub, rfl⟩ := createTexture_none h
  have hlog := (Logs.submit hsub).log
  have hfresh : e.stock.textures.contains t.1 = false := by
    have hnone : e.stock.textures.get? t.1 = none := created_fresh (submit_backend hsub).2
    rw [Table.contains, hnone]
    rfl
  have hstock : e₁.stock.textures = e.stock.textures.insert t.1 (t.2.sized e.width e.height) := by
    rw [submit_accepted hsub]
    rfl
  have htracked : ∀ a, (e.textures.insert t.1 t.2).contains a =
      (decide (a = t.1) || e.textures.contains a) :=
    fun a => Table.contains_insert _ _ _ _
  have hheld : ∀ a,
      e₁.stock.textures.contains a = (decide (a = t.1) || e.stock.textures.contains a) :=
    fun a => by rw [hstock, Table.contains_insert]
  refine ⟨⟨_, hlog, fun s hs => ?_⟩, hfresh, htracked, hheld⟩
  have hid : t.1 ∉ s.leaked := fun hid => by simp [(hs.leaked t.1 hid).2] at hfresh
  refine hs.found hid (fun a hne => ⟨?_, ?_⟩) ?_
  · exact (htracked a).trans (by simp [hne])
  · exact (hheld a).trans (by simp [hne])
  · exact (htracked t.1).trans ((hheld t.1).trans (by simp)).symm

/-- A texture that is given back is forgotten, and leaks when the backend keeps it. -/
theorem discard_one_accounts {id : String} (htracked : e.textures.contains id = true) :
    Accounts Strays.given e (e.discard [id]) := by
  cases hsub : e.submit (.destroyTexture id) with
  | mk e₁ r =>
      have hgone : e.discard [id] = { e₁ with textures := e.textures.erase id } := by
        rw [discard, List.foldl_cons, hsub, (submit_backend hsub).1]
        rfl
      rw [hgone]
      generalize he₂ : ({ e₁ with textures := e.textures.erase id } : Executor (Scribe β)) = e₂
      have htextures : e₂.textures = e.textures.erase id := by rw [← he₂]
      have hstock : e₂.stock = e₁.stock := by rw [← he₂]; rfl
      refine ⟨[(.destroyTexture id, r)], by rw [← he₂]; exact (Logs.submit hsub).log,
        fun s hs => ?_⟩
      have hleaked := hs.not_leaked_of_tracked htracked
      show Reconciled e₂ (s.given (.destroyTexture id, r))
      cases r with
      | none =>
          have hheld : e₂.stock.textures = e.stock.textures.erase id := by
            rw [hstock, submit_accepted hsub]
            rfl
          refine hs.found hleaked (fun a hne => ?_) ?_
          · simp [htextures, hheld, Table.contains, hne]
          · simp [htextures, hheld, Table.contains]
      | some refusal =>
          have hheld : e₂.stock.textures = e.stock.textures := by rw [hstock, submit_refused hsub]
          have helse : Reconciled.Elsewhere id e e₂ := fun a hne => by
            simp [htextures, hheld, Table.contains, hne]
          have huntracked : e₂.textures.contains id = false := by simp [htextures, Table.contains]
          rw [Strays.given]
          split
          · next hid =>
              -- it was lost before, so that the two agree about it now
              exact hs.found hleaked helse (by rw [huntracked, hheld, (hs.lost id hid).2])
          · next hid =>
              exact hs.leak hid helse huntracked
                (by rw [hheld, ← hs.others id hleaked hid, htracked])

/-- Discarding tracked textures accounts for what it destroyed. -/
theorem discard_accounts {ids : List String} (hnodup : ids.Nodup)
    (htracked : ∀ id ∈ ids, e.textures.contains id = true) :
    Accounts Strays.given e (e.discard ids) := by
  induction ids generalizing e with
  | nil => exact .same rfl rfl
  | cons id ids ih =>
      obtain ⟨hid, hnodup⟩ := List.nodup_cons.1 hnodup
      obtain ⟨hfirst, htracked⟩ := List.forall_mem_cons.1 htracked
      have hstill : ∀ a ∈ ids, (e.discard [id]).textures.contains a = true := by
        intro a ha
        have hne : a ≠ id := fun heq => hid (heq ▸ ha)
        show (e.textures.erase id).contains a = true
        simpa [Table.contains, hne] using htracked a ha
      exact (discard_one_accounts hfirst).trans (ih hnodup hstill)

/-- Textures are made, or those made before one that is refused are given back. -/
theorem createTextures_accounts {done : List String} (ts : List (String × TextureSpec))
    (hnodup : done.Nodup)
    (hdone : ∀ id ∈ done, e.textures.contains id = true ∧ e.stock.textures.contains id = true) :
    Accounts Strays.given e (e.createTextures done ts).1 := by
  fun_induction createTextures e done ts with
  | case1 e done => exact .same rfl rfl
  | case2 e done t ts e₁ hone ih =>
      obtain ⟨hfirst, hfresh, htracked, hheld⟩ := createTexture_accounts hone
      refine hfirst.trans (ih ?_ ?_)
      · refine List.nodup_append.2 ⟨hnodup, by simp, fun a ha b hb heq => ?_⟩
        obtain rfl := List.mem_singleton.1 hb
        simp [heq ▸ (hdone a ha).2] at hfresh
      · intro a ha
        rw [htracked, hheld]
        rcases List.mem_append.1 ha with ha | ha
        · simp [hdone a ha]
        · simp [List.mem_singleton.1 ha]
  | case3 e done t ts e₁ err hone =>
      obtain ⟨r, hsub⟩ := createTexture_some hone
      obtain ⟨hsame, -⟩ := submit_backend hsub
      have hrefused : Accounts Strays.given e e₁ := by
        refine ⟨_, (Logs.submit hsub).log, fun s hs => ?_⟩
        exact hs.of_same (by rw [hsame]) (by rw [submit_refused hsub])
      refine hrefused.trans (discard_accounts hnodup fun a ha => ?_)
      rw [hsame]
      exact (hdone a ha).1

/-! ## the calls -/

/-- Compiling programs accounts for no texture. -/
theorem compilePrograms_accounts (e : Executor (Scribe β)) (g : Graph) :
    Accounts Strays.given e (e.compilePrograms g).1 := by
  have hall := runList_keeps (f := compileProgram) (Accounts Strays.given e)
    (fun e₁ p h =>
      h.trans (.idle (c := .compileProgram p.1 p.2) (fun _ _ => rfl) (fun _ => rfl) rfl))
    (e.changedPrograms g) e (.same rfl rfl)
  unfold compilePrograms
  dsimp only
  split <;> next hrun => rw [hrun] at hall; exact hall.trans (.same rfl rfl)

/-- Loading accounts for what it created and discarded. -/
theorem load_accounts (e : Executor (Scribe β)) (g : Graph) (alloc : Option Graph.Allocation) :
    Accounts Strays.given e (e.load g alloc).1 := by
  cases hload : e.load g alloc with
  | mk e' r =>
      have hcompile := compilePrograms_accounts e g
      cases r with
      | none =>
          obtain ⟨e₁, e₂, passes, -, h₁, -, h₂, rfl⟩ := load_none hload
          have hcreate :=
            createTextures_accounts (e := e₁) (e₁.loadTextures g alloc) List.nodup_nil (by simp)
          rw [h₁] at hcompile
          rw [show e₁.createTextures [] (e₁.loadTextures g alloc) = (e₂, none) from h₂] at hcreate
          have hrelease : ∀ (e : Executor (Scribe β)) keep,
              Accounts Strays.given e (e.releaseSlots keep) :=
            fun e keep => discard_accounts ((Table.nodup_keys _).filter _) fun id hid =>
              Table.mem_keys_iff.1 (List.mem_filter.1 hid).1
          exact (hcompile.trans hcreate).trans ((hrelease _ _).of_same rfl rfl)
      | some err =>
          rcases load_some hload with ⟨-, rfl⟩ | ⟨-, ⟨r, h₁⟩ | ⟨e₁, h₁, h₂⟩⟩
          · exact .same rfl rfl
          · rwa [h₁] at hcompile
          · have hcreate :=
              createTextures_accounts (e := e₁) (e₁.loadTextures g alloc) List.nodup_nil (by simp)
            rw [h₁] at hcompile
            rw [h₂] at hcreate
            exact hcompile.trans hcreate

/-- A texture that is made anew is lost in between. -/
theorem recreate_accounts {t : String × TextureSpec} (htracked : e.textures.contains t.1 = true) :
    Accounts Strays.remade e (e.recreate t).1 ∧ (e.recreate t).1.textures = e.textures := by
  unfold recreate
  cases hgone : e.submit (.destroyTexture t.1) with
  | mk e₁ r =>
      have htextures : e₁.textures = e.textures := by rw [(submit_backend hgone).1]
      cases r with
      | some refusal =>
          refine ⟨⟨_, (Logs.submit hgone).log, fun s hs => ?_⟩, htextures⟩
          exact hs.of_same htextures (by rw [submit_refused hgone])
      | none =>
          have hlost : Accounts Strays.remade e e₁ := by
            refine ⟨_, (Logs.submit hgone).log, fun s hs => ?_⟩
            have hheld : e₁.stock.textures = e.stock.textures.erase t.1 := by
              rw [submit_accepted hgone]
              rfl
            refine hs.lose (hs.not_leaked_of_tracked htracked) (fun a hne => ?_)
              (by rw [htextures, htracked]) ?_
            · simp [htextures, hheld, Table.contains, hne]
            · simp [hheld, Table.contains]
          cases hmade : e₁.submit (.createTexture t.1 (t.2.sized e₁.width e₁.height)) with
          | mk e₂ r =>
              have htextures₂ : e₂.textures = e₁.textures := by rw [(submit_backend hmade).1]
              have hfound : Accounts Strays.remade e₁ e₂ := by
                refine ⟨_, (Logs.submit hmade).log, fun s hs => ?_⟩
                cases r with
                | some refusal => exact hs.of_same htextures₂ (by rw [submit_refused hmade])
                | none =>
                    have hheld : e₂.stock.textures = e₁.stock.textures.insert t.1
                        (t.2.sized e₁.width e₁.height) := by
                      rw [submit_accepted hmade]
                      rfl
                    have htracked₁ : e₁.textures.contains t.1 = true := by rw [htextures, htracked]
                    refine hs.found (hs.not_leaked_of_tracked htracked₁) (fun a hne => ?_) ?_
                    · simp [htextures₂, hheld, hne]
                    · simp [htextures₂, hheld, htracked₁]
              dsimp only
              rw [hmade]
              exact ⟨hlost.trans hfound, htextures₂.trans htextures⟩

/-- Resizing accounts for what it made anew. -/
theorem resize_accounts (e : Executor (Scribe β)) (width height : Int) :
    Accounts Strays.remade e (e.resize width height).1 := by
  unfold resize
  split
  · exact .same rfl rfl
  · split
    · next hsub => exact .idle (fun _ _ => rfl) (fun _ => rfl) hsub
    · next e₁ hsub =>
        have hsized : Accounts Strays.remade e e₁ := .idle (fun _ _ => rfl) (fun _ => rfl) hsub
        have htextures : e₁.textures = e.textures := by rw [(submit_backend hsub).1]
        -- no texture is forgotten on the way
        refine (runList_keeps_of_mem (f := recreate)
          (fun e' => Accounts Strays.remade e e' ∧ e'.textures = e.textures) _ (fun e' t ht h => ?_)
          { e₁ with width, height } ⟨hsized.trans (.same rfl rfl), htextures⟩).1
        have hentry := Table.mem_entries_iff.1 (List.mem_filter.1 ht).1
        have htracked : e'.textures.contains t.1 = true :=
          Table.contains_iff.2 ⟨t.2, by rw [h.2, ← htextures]; exact hentry⟩
        obtain ⟨hone, hkept⟩ := recreate_accounts htracked
        exact ⟨h.1.trans hone, hkept.trans h.2⟩

/-- Disposing accounts for what it destroyed. -/
theorem dispose_accounts (e : Executor (Scribe β)) : Accounts Strays.given e e.dispose.1 := by
  have hclosed : ∀ e : Executor (Scribe β), Accounts Strays.given e (e.submit .close).1 :=
    fun e => .idle (c := .close) (fun _ _ => rfl) (fun _ => rfl) rfl
  unfold dispose
  split
  · exact .same rfl rfl
  · have hgone := discard_accounts (e := e) e.textures.nodup_keys fun id hid =>
      Table.mem_keys_iff.1 hid
    refine hgone.trans ((hclosed _).of_same rfl ?_)
    refine (Table.ext_get? fun id => ?_).symm
    cases hstill : (e.discard e.textures.keys).textures.get? id with
    | none => rfl
    | some spec =>
        obtain ⟨htracked, hnot⟩ := mem_of_discard (Table.contains_iff.2 ⟨spec, hstill⟩)
        exact absurd (Table.mem_keys_iff.2 htracked) hnot

/-! ## a run of calls -/

/-- What was asked since an earlier state of the renderer. -/
def since (e e' : Executor (Scribe β)) : List Exchange := e'.backend.log.drop e.backend.log.length

/-- The renderers that calls lead to, whatever their outcome, with the strays that the
transcript tells of.  Between the calls the backend may change in any way that keeps its
stock, such as to refuse other requests. -/
inductive Straying : Executor (Scribe β) → Strays → Prop
  | start {b b' : Scribe β} {width height : Int} {e : Executor (Scribe β)}
      (hempty : (Stocked.stock b).textures = {}) (h : Executor.start b width height = (b', .ok e)) :
        Straying e {}
  | backend {e : Executor (Scribe β)} {s : Strays} (h : Straying e s) (b : Scribe β)
      (hb : Stocked.stock b = e.stock) : Straying { e with backend := b } s
  | load {e : Executor (Scribe β)} {s : Strays} (h : Straying e s) (g : Graph)
      (alloc : Option Graph.Allocation) :
      Straying (e.load g alloc).1 ((e.since (e.load g alloc).1).foldl Strays.given s)
  | frame {e : Executor (Scribe β)} {s : Strays} (h : Straying e s) (state : FrameState) :
      Straying (e.frame state).1 s
  | resize {e : Executor (Scribe β)} {s : Strays} (h : Straying e s) (width height : Int) :
      Straying (e.resize width height).1 ((e.since (e.resize width height).1).foldl Strays.remade s)
  | dispose {e : Executor (Scribe β)} {s : Strays} (h : Straying e s) :
      Straying e.dispose.1 ((e.since e.dispose.1).foldl Strays.given s)

/-- An executor that accounts for its requests stays reconciled. -/
theorem Accounts.reconciled (h : Accounts f e e') (hs : Reconciled e s) :
    Reconciled e' ((e.since e').foldl f s) := by
  obtain ⟨xs, hlog, hxs⟩ := h
  rw [since, hlog, List.drop_left]
  exact hxs s hs

/-- After every call, the strays of the transcript are all the strays. -/
theorem Straying.reconciled (h : Straying e s) : Reconciled e s := by
  induction h with
  | @start b b' width height e hempty h =>
      -- before any call, the renderer remembers nothing and the backend holds nothing
      have hstock : e.stock = Stocked.stock b := start_stock h
      obtain ⟨w, h, rfl⟩ := start_fresh h
      refine ⟨by simp, by simp, fun id _ _ => ?_⟩
      rw [hstock, hempty]
  | backend h b hb ih => exact ih.of_same rfl (congrArg Stock.textures hb)
  | load h g alloc ih => exact (load_accounts _ g alloc).reconciled ih
  | @frame e s h state ih =>
      have hsame := frame_sustains e state
      exact ih.of_same hsame.textures (congrArg Stock.textures hsame.stock)
  | resize h width height ih => exact (resize_accounts _ width height).reconciled ih
  | dispose h ih => exact (dispose_accounts _).reconciled ih

/-- An executor with strays is in a session. -/
theorem Straying.session (h : Straying e s) : ∃ stale, Session e stale := by
  induction h with
  | start _ h => exact ⟨_, .start h⟩
  | backend _ b hb ih => exact ih.imp fun _ hs => .backend hs b hb
  | load _ g alloc ih => exact ih.elim fun _ hs => ⟨_, .load hs g alloc⟩
  | frame _ state ih => exact ih.imp fun _ hs => .frame hs state
  | resize _ width height ih => exact ih.imp fun _ hs => .resize hs width height
  | dispose _ ih => exact ih.imp fun _ hs => .dispose hs

/-! ## a backend that recovers -/

/-- A load that succeeds makes textures that the backend did not hold. -/
theorem createTextures_absent {done : List String} {ts : List (String × TextureSpec)}
    (h : e.createTextures done ts = (e', none)) :
    ∀ t ∈ ts, e.stock.textures.contains t.1 = false := by
  fun_induction createTextures e done ts with
  | case1 e done => simp
  | case2 e done t ts e₁ hone ih =>
      obtain ⟨-, hfresh, -, hheld⟩ := createTexture_accounts hone
      refine List.forall_mem_cons.2 ⟨hfresh, fun t' ht' => ?_⟩
      have habsent := ih h t' ht'
      rw [hheld, Bool.or_eq_false_iff] at habsent
      exact habsent.2
  | case3 e done t ts e₁ err hone => exact absurd (Prod.mk.inj h).2 (by simp)

/-- A texture that is made anew was held, and is held. -/
theorem recreate_none (hstrict : Strict β) {t : String × TextureSpec}
    (h : e.recreate t = (e', none)) :
    e.stock.textures.contains t.1 = true ∧
      ∀ a, e'.stock.textures.contains a = (decide (a = t.1) || e.stock.textures.contains a) := by
  unfold recreate at h
  split at h
  · simp at h
  · next e₁ hgone =>
      refine ⟨hstrict (Scribe.submit_eq_iff.1 (submit_backend hgone).2).1, fun a => ?_⟩
      cases hmade : e₁.submit (.createTexture t.1 (t.2.sized e₁.width e₁.height)) with
      | mk e₂ r =>
          simp only [hmade, Prod.mk.injEq, Option.map_eq_none_iff] at h
          obtain ⟨rfl, rfl⟩ := h
          rw [submit_accepted hmade, submit_accepted hgone]
          show ((e.stock.textures.erase t.1).insert t.1 _).contains a = _
          rw [Table.insert_erase]
          exact Table.contains_insert _ _ _ _

/-- Textures that are made anew were held, if the backend destroys no others. -/
theorem recreated_held (hstrict : Strict β) {ts : List (String × TextureSpec)}
    (h : runList recreate e ts = (e', none)) : ∀ t ∈ ts, e.stock.textures.contains t.1 = true := by
  induction ts generalizing e with
  | nil => simp
  | cons t ts ih =>
      rw [runList] at h
      cases hone : e.recreate t with
      | mk e₁ r =>
          rw [hone] at h
          cases r with
          | some err => exact absurd (Prod.mk.inj h).2 (by simp)
          | none =>
              obtain ⟨hheld, hstock⟩ := recreate_none hstrict hone
              refine List.forall_mem_cons.2 ⟨hheld, fun t' ht' => ?_⟩
              have hstill := ih h t' ht'
              rw [hstock, Bool.or_eq_true, decide_eq_true_iff] at hstill
              rcases hstill with heq | hstill
              · rw [heq, hheld]
              · exact hstill

/-- The textures that follow the size were held, when the size was changed. -/
theorem resize_held (hstrict : Strict β) {width height : Int}
    (h : e.resize width height = (e', none)) :
    ∀ t ∈ e.textures.entries.filter (·.2.follows), e.stock.textures.contains t.1 = true := by
  unfold resize at h
  split at h
  · simp at h
  · split at h
    · simp at h
    · next e₁ hsub =>
        have hstock : e₁.stock = e.stock := submit_idle (fun _ => rfl) hsub
        have hheld := recreated_held hstrict h
        have htextures : e₁.textures = e.textures := by rw [(submit_backend hsub).1]
        rw [← htextures, ← hstock]
        exact hheld

/-- On a backend that has recovered, a load needs no texture that has leaked. -/
theorem Straying.load_gets_through (h : Straying e s) {works : β → Prop}
    (hb : Unfailing works fun b => (Stocked.stock b).textures) (hworks : works e.backend.inner)
    (hdisposed : e.disposed = false) (g : Graph) (alloc : Option Graph.Allocation) :
    (e.load g alloc).2 = none ↔ (∃ passes, g.passes.mapM LoadedPass.read = .ok passes) ∧
      ∀ t ∈ e.loadTextures g alloc, t.1 ∉ s.leaked := by
  have hs := h.reconciled
  constructor
  · intro hnone
    obtain ⟨e₁, e₂, passes, -, hcompile, hread, hcreate, -⟩ := load_none (Prod.ext rfl hnone)
    obtain ⟨hsame, hstock, -⟩ := compilePrograms_stock hdisposed hcompile
    have hts : e₁.loadTextures g alloc = e.loadTextures g alloc := by rw [hsame]; rfl
    have habsent : ∀ t ∈ e₁.loadTextures g alloc, e₁.stock.textures.contains t.1 = false :=
      createTextures_absent hcreate
    refine ⟨⟨passes, hread⟩, fun t ht hleaked => ?_⟩
    have hgone := habsent t (hts ▸ ht)
    rw [hstock] at hgone
    exact absurd ((hs.leaked t.1 hleaked).2.symm.trans hgone) (by simp)
  · rintro ⟨⟨passes, hread⟩, hclear⟩
    obtain ⟨stale, hsession⟩ := h.session
    have hnew : ∀ t ∈ e.loadTextures g alloc, e.stock.textures.contains t.1 = false := by
      intro t ht
      have huntracked : e.textures.contains t.1 = false := by
        rw [Table.contains, hsession.tracked.loadTextures_fresh ht]
        rfl
      have hlost : t.1 ∉ s.lost := fun hid => by simp [(hs.lost _ hid).1] at huntracked
      exact (hs.others t.1 (hclear t ht) hlost).symm.trans huntracked
    obtain ⟨b, programs, -, -, hload⟩ := load_works hb.scribe hworks hdisposed hread hnew
    rw [hload]

/-- On a backend that has recovered, the size can be changed if no lost texture follows it. -/
theorem Reconciled.resize_gets_through (hs : Reconciled e s) {works : β → Prop}
    (hb : Unfailing works fun b => (Stocked.stock b).textures) (hstrict : Strict β)
    (hworks : works e.backend.inner) (hdisposed : e.disposed = false) (width height : Int) :
    (e.resize width height).2 = none ↔
      ∀ id ∈ s.lost, ∀ spec, e.textures.get? id = some spec → spec.follows = false := by
  constructor
  · intro hnone id hid spec hspec
    cases hfollows : spec.follows with
    | false => rfl
    | true =>
        have habsent := (hs.lost id hid).2
        have hheld := resize_held hstrict (Prod.ext rfl hnone) (id, spec)
          (List.mem_filter.2 ⟨Table.mem_entries_iff.2 hspec, hfollows⟩)
        simp [habsent] at hheld
  · intro hlost
    have hheld : ∀ t ∈ e.textures.entries.filter (·.2.follows),
        e.stock.textures.contains t.1 = true := by
      intro t ht
      obtain ⟨hentry, hfollows⟩ := List.mem_filter.1 ht
      have hspec := Table.mem_entries_iff.1 hentry
      have htracked : e.textures.contains t.1 = true := Table.contains_iff.2 ⟨t.2, hspec⟩
      have hnot : t.1 ∉ s.lost := fun hid => by simp [hlost t.1 hid t.2 hspec] at hfollows
      exact (hs.others t.1 (hs.not_leaked_of_tracked htracked) hnot).symm.trans htracked
    obtain ⟨b, hresize, -⟩ := resize_works hb.scribe hworks hdisposed width height hheld
    rw [hresize]

end Executor

open Executor in
/-- The textures that a renderer remembers are those of the backend, but for the strays: those
that the backend did not destroy when they were given back leak, and those that it
destroyed but did not make again are lost.  When the backend recovers, a load gets through if
and only if it needs no texture that has leaked, and a change of the size if and only if no
lost texture follows it. -/
theorem strays_of_transcript {β : Type} [Backend β] [Stocked β] {e : Executor (Scribe β)}
    {s : Strays} (h : Straying e s) :
    (∀ id, e.textures.contains id = e.stock.textures.contains id ↔ id ∉ s.leaked ∧ id ∉ s.lost) ∧
      (∀ id ∈ s.leaked, e.textures.contains id = false ∧ e.stock.textures.contains id = true) ∧
      (∀ id ∈ s.lost, e.textures.contains id = true ∧ e.stock.textures.contains id = false) ∧
      ∀ works : β → Prop, Unfailing works (fun b => (Stocked.stock b).textures) → Strict β →
        works e.backend.inner → e.disposed = false →
          (∀ g alloc, (e.load g alloc).2 = none ↔
            (∃ passes, g.passes.mapM LoadedPass.read = .ok passes) ∧
            ∀ t ∈ e.loadTextures g alloc, t.1 ∉ s.leaked) ∧
          ∀ width height, (e.resize width height).2 = none ↔
            ∀ id ∈ s.lost, ∀ spec, e.textures.get? id = some spec → spec.follows = false := by
  have hs := h.reconciled
  refine ⟨fun id =>
    ⟨fun hagree => ⟨fun hid => ?_, fun hid => ?_⟩, fun hid => hs.others id hid.1 hid.2⟩,
    hs.leaked, hs.lost, fun works hb hstrict hworks hdisposed => ⟨?_, ?_⟩⟩
  · simp [(hs.leaked id hid).1, (hs.leaked id hid).2] at hagree
  · simp [(hs.lost id hid).1, (hs.lost id hid).2] at hagree
  · exact h.load_gets_through hb hworks hdisposed
  · exact hs.resize_gets_through hb hstrict hworks hdisposed

/-- The backend is made to fail, or to fail no more. -/
def Executor.failing (e : Executor (Scribe Recorder))
    (failures : List ((String × String) × String)) :
    Executor (Scribe Recorder) :=
  { e with backend := { e.backend with inner := { e.backend.inner with failures } } }

theorem Executor.Straying.failing {e : Executor (Scribe Recorder)} {s : Strays} (h : Straying e s)
    (failures : List ((String × String) × String)) : Straying (e.failing failures) s :=
  h.backend _ rfl

/-- A renderer that runs `mist`. -/
def misty : Executor (Scribe Recorder) :=
  (Executor.load { backend := (runList Scribe.submit { inner := {} } [.init, .resize 64 32]).1,
                   width := 64, height := 32 } mist none).1

/-- It could not give back the slot of `mist`, nor make one buffer anew, on a backend that
has recovered since. -/
def astray : Executor (Scribe Recorder) :=
  (((misty.failing [(("DestroyTexture", "slot_0@rgba8unorm-8x8"), "busy"),
    (("CreateTexture", "global_o1#0"), "full")]).load tint none).1.resize 32 16).1.failing []

/-- What the renderer remembers and needs. -/
theorem astray_facts : astray.disposed = false ∧
    astray.backend.inner.closed = false ∧ astray.backend.inner.failures.isEmpty = true ∧
    (astray.loadTextures mist none).any (·.1 = "slot_0@rgba8unorm-8x8") = true ∧
    astray.loadTextures tint none = [] ∧
    (astray.textures.get? "global_o1#0").map (·.follows) = some true := by
  decide +kernel

/-- The slot has leaked and stands in the way of `mist`; the buffer is lost and stands in the
way of every change of the size. -/
theorem mist_goes_astray :
    Executor.Straying astray { leaked := ["slot_0@rgba8unorm-8x8"], lost := ["global_o1#0"] } ∧
      Unfailing Recorder.Works (fun r => (Stocked.stock r).textures) ∧ Strict Recorder ∧
      astray.backend.inner.Works ∧ astray.disposed = false ∧
      astray.textures.contains "global_o1#0" ≠ astray.stock.textures.contains "global_o1#0" ∧
      (astray.load mist none).2 ≠ none ∧ (astray.load tint none).2 = none ∧
      ∀ width height, (astray.resize width height).2 ≠ none := by
  obtain ⟨hlive, hopen, hfailures, hmist, htint, hfollows⟩ := astray_facts
  have hstart : Executor.start ({ inner := {} } : Scribe Recorder) 64 32 =
    (_, .ok { backend := (runList Scribe.submit { inner := {} } [.init, .resize 64 32]).1,
              width := 64, height := 32 }) := rfl
  have hastray : Executor.Straying astray { leaked := ["slot_0@rgba8unorm-8x8"],
                                            lost := ["global_o1#0"] } := by
    have hmisty := Executor.Straying.load (.start rfl hstart) mist none
    have hfailing := hmisty.failing [(("DestroyTexture", "slot_0@rgba8unorm-8x8"), "busy"),
      (("CreateTexture", "global_o1#0"), "full")]
    have hlast := ((hfailing.load tint none).resize 32 16).failing []
    rw [← misty, ← astray] at hlast
    refine (congrArg (Executor.Straying astray) ?_).mp hlast
    decide +kernel
  have hworks : astray.backend.inner.Works := ⟨hopen, List.isEmpty_iff.1 hfailures⟩
  obtain ⟨hagree, -, -, hrecovers⟩ := strays_of_transcript hastray
  obtain ⟨hloads, hsizes⟩ := hrecovers _ Recorder.unfailing Recorder.strict hworks hlive
  refine ⟨hastray, Recorder.unfailing, Recorder.strict, hworks, hlive, ?_, ?_, ?_, ?_⟩
  · rw [ne_eq, hagree]
    simp
  · rw [ne_eq, hloads]
    rintro ⟨-, hclear⟩
    obtain ⟨t, ht, hname⟩ := List.any_eq_true.1 hmist
    exact hclear t ht (by simp_all)
  · rw [hloads]
    refine ⟨⟨_, rfl⟩, ?_⟩
    simp [htint]
  · intro width height
    rw [ne_eq, hsizes]
    intro hclear
    obtain ⟨spec, hspec, htrue⟩ := Option.map_eq_some_iff.1 hfollows
    exact absurd (hclear "global_o1#0" (by simp) spec hspec) (by simp [htrue])

end EffectChain
