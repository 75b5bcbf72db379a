import EffectChain.Proofs.Render.Bindings

/-!
# EffectChain.Proofs.Render.Buffers

The names of stored textures.  The buffers of a surface carry its name, so that
surfaces do not share buffers and no buffer is a slot.

* `Executor.tidied_of_reachable` — the surfaces of every executor that can be reached
  have the buffers of their names, and its graph has the slots of its allocation.
-/

namespace EffectChain

/-! ## names -/

/-- The name of a persistent texture starts in one of three ways. -/
theorem prefix_of_isPersistent {id : String} (h : Graph.isPersistent id = true) :
    "global_".toList <+: id.toList ∨ "feedback_".toList <+: id.toList ∨
    "source_".toList <+: id.toList := by
  simpa [Graph.isPersistent, Graph.isFeedback, Graph.isSource, String.startsWith_string_iff,
    or_assoc] using h

/-- A slot is no buffer of a surface. -/
theorem slotId_ne_append {id : String} (h : Graph.isPersistent id = true) (i : Nat)
    (spec : TextureSpec) (suffix : String) : Executor.slotId i spec ≠ id ++ suffix := by
  intro heq
  have hlist := congrArg String.toList heq
  simp only [Executor.slotId, Graph.slotName, String.toList_append] at hlist
  rcases prefix_of_isPersistent h with ⟨rest, hid⟩ | ⟨rest, hid⟩ | ⟨rest, hid⟩ <;>
    (rw [← hid] at hlist; simp at hlist)

/-- The two buffers of a surface have different names. -/
theorem append_zero_ne_append_one (a b : String) : a ++ "#0" ≠ b ++ "#1" := by
  intro heq
  have hlist := congrArg String.toList heq
  simp only [String.toList_append] at hlist
  have := congrArg List.getLast? hlist
  simp at this

theorem eq_of_append_eq_append {a b suffix : String} (h : a ++ suffix = b ++ suffix) : a = b := by
  have hlist := congrArg String.toList h
  simp only [String.toList_append] at hlist
  exact String.toList_inj.1 (List.append_cancel_right hlist)

/-- Slots with different numbers have different names. -/
theorem slotId_inj {i j : Nat} {spec spec' : TextureSpec}
    (h : Executor.slotId i spec = Executor.slotId j spec') : i = j := by
  have hlist := congrArg String.toList h
  simp only [Executor.slotId, Graph.slotName, String.toList_append, List.append_assoc] at hlist
  have hdigits := List.append_cancel_left hlist
  -- the digits end at the first `@`
  have hstop : ∀ (n : Nat) (rest : List Char),
      ((toString n).toList ++ ("@".toList ++ rest)).takeWhile (· ≠ '@') = Nat.toDigits 10 n := by
    intro n rest
    have hall : ∀ c ∈ Nat.toDigits 10 n, decide (c ≠ '@') = true := by
      intro c hc
      have hdigit := Nat.isDigit_of_mem_toDigits (by decide) (by decide) hc
      rw [decide_eq_true_iff]
      rintro rfl
      exact absurd hdigit (by decide)
    simp only [Nat.toString_eq_ofList_toDigits, String.toList_ofList]
    rw [List.takeWhile_append_of_pos hall]
    simp
  have hsame : Nat.toDigits 10 i = Nat.toDigits 10 j := by
    rw [← hstop i spec.key.toList, ← hstop j spec'.key.toList, hdigits]
  rw [← Nat.ofDigitChars_ten_toDigits (n := i), hsame, Nat.ofDigitChars_ten_toDigits]

/-! ## the buffers of a surface -/

namespace BufferPair

/-- The second buffer of a surface; a source has only one. -/
def second (id : String) : String := if Graph.isSource id then id ++ "#0" else id ++ "#1"

/-- The surface has the name and the buffers that go with it, in one order or the
other. -/
def Named (id : String) (b : BufferPair) : Prop :=
  b.id = id ∧ (b.read = id ++ "#0" ∧ b.write = second id ∨ b.read = second id ∧
    b.write = id ++ "#0")

variable {id id' : String} {b b' : BufferPair}

theorem named_ofSurface (id : String) (spec : TextureSpec) : (ofSurface id spec).Named id :=
  ⟨rfl, .inl ⟨rfl, rfl⟩⟩

theorem Named.swap (h : b.Named id) : b.swap.Named id := by
  obtain ⟨hid, ⟨hr, hw⟩ | ⟨hr, hw⟩⟩ := h
  · exact ⟨hid, .inr ⟨hw, hr⟩⟩
  · exact ⟨hid, .inl ⟨hw, hr⟩⟩

theorem Named.withDirty (h : b.Named id) (dirty : Bool) :
    ({ b with dirty } : BufferPair).Named id := h

theorem Named.isFeedback (h : b.Named id) : b.isFeedback = Graph.isFeedback id := by
  rw [BufferPair.isFeedback, h.1]

/-- Both buffers carry the name of the surface. -/
theorem Named.buffer (h : b.Named id) {t : String} (ht : t = b.read ∨ t = b.write) :
    t = id ++ "#0" ∨ t = id ++ "#1" := by
  have hsecond : second id = id ++ "#0" ∨ second id = id ++ "#1" := by
    unfold second
    split
    · exact .inl rfl
    · exact .inr rfl
  obtain ⟨-, ⟨hr, hw⟩ | ⟨hr, hw⟩⟩ := h <;> rcases ht with rfl | rfl <;> simp [hr, hw, hsecond]

theorem read_mem_buffers (b : BufferPair) : b.read ∈ b.buffers := by
  unfold buffers
  split <;> simp

/-- A pair has exactly its read and its write buffer. -/
theorem mem_buffers_iff {b : BufferPair} {t : String} :
    t ∈ b.buffers ↔ t = b.read ∨ t = b.write := by
  unfold buffers
  split
  · next hsame => rw [List.mem_singleton, ← hsame, or_self]
  · simp

/-- The stored textures of a surface, by its name. -/
def buffersOf (id : String) : List String :=
  if Graph.isSource id then [id ++ "#0"] else [id ++ "#0", id ++ "#1"]

/-- The buffers of a pair are those named after its surface. -/
theorem Named.mem_buffers_iff (h : b.Named id) {t : String} : t ∈ b.buffers ↔ t ∈ buffersOf id := by
  have hne := append_zero_ne_append_one id id
  unfold buffers buffersOf
  obtain ⟨-, ⟨hr, hw⟩ | ⟨hr, hw⟩⟩ := h
  · cases hs : Graph.isSource id <;> simp [hr, hw, second, hs, hne]
  · cases hs : Graph.isSource id <;> simp [hr, hw, second, hs, hne.symm, or_comm]

/-- Surfaces do not share buffers. -/
theorem Named.apart (h : b.Named id) (h' : b'.Named id') (hne : id ≠ id') {t t' : String}
    (ht : t = b.read ∨ t = b.write) (ht' : t' = b'.read ∨ t' = b'.write) : t ≠ t' := by
  rintro rfl
  rcases h.buffer ht with heq | heq <;> rcases h'.buffer ht' with heq' | heq'
  · exact hne (eq_of_append_eq_append (heq.symm.trans heq'))
  · exact append_zero_ne_append_one id id' (heq.symm.trans heq')
  · exact append_zero_ne_append_one id' id (heq'.symm.trans heq)
  · exact hne (eq_of_append_eq_append (heq.symm.trans heq'))

/-- A surface that is no source has two buffers. -/
theorem Named.read_ne_write (h : b.Named id) (hs : Graph.isSource id = false) :
    b.read ≠ b.write := by
  have hsecond : second id = id ++ "#1" := by simp [second, hs]
  obtain ⟨-, ⟨hr, hw⟩ | ⟨hr, hw⟩⟩ := h
  · rw [hr, hw, hsecond]
    exact append_zero_ne_append_one id id
  · rw [hr, hw, hsecond]
    exact (append_zero_ne_append_one id id).symm

theorem Named.ne_slot (h : b.Named id) (hp : Graph.isPersistent id = true) {t : String}
    (ht : t = b.read ∨ t = b.write) (i : Nat) (spec : TextureSpec) :
    Executor.slotId i spec ≠ t := by
  rcases h.buffer ht with rfl | rfl <;> exact slotId_ne_append hp i spec _

end BufferPair

/-! ## what every call keeps -/

/-- The stored textures of the slots of an allocation. -/
def slotIds (a : Graph.Allocation) : List String :=
  a.specs.zipIdx.map fun (spec, i) => Executor.slotId i spec

/-- Every surface is a persistent texture with the buffers of its name. -/
def Tidy (surfaces : Table BufferPair) : Prop :=
  ∀ id b, surfaces.get? id = some b → Graph.isPersistent id = true ∧ b.Named id

/-- A graph with its passes read and its slots named. -/
structure LoadedGraph.Ready (g : LoadedGraph) : Prop where
  passes : g.graph.passes.mapM LoadedPass.read = .ok g.passes
  slots : g.slots = slotIds g.alloc

/-- The passes that are read are the passes of the graph. -/
theorem LoadedGraph.Ready.map_pass {g : LoadedGraph} (h : g.Ready) :
    g.passes.map (·.pass) = g.graph.passes := by
  have hread : ∀ {p : Graph.Pass} {l : LoadedPass}, LoadedPass.read p = .ok l → l.pass = p := by
    intro p l hl
    unfold LoadedPass.read at hl
    simp only [bind, Except.bind, pure, Except.pure] at hl
    split at hl
    · simp at hl
    · split at hl
      · simp at hl
      · split at hl
        · simp at hl
        · rw [← Except.ok.inj hl]
  have hall : ∀ (ps : List Graph.Pass) (ls : List LoadedPass),
      ps.mapM LoadedPass.read = .ok ls → ls.map (·.pass) = ps := by
    intro ps
    induction ps with
    | nil =>
        intro ls hls
        simp only [List.mapM_nil, pure, Except.pure, Except.ok.injEq] at hls
        simp [← hls]
    | cons p ps ih =>
        intro ls hls
        simp only [List.mapM_cons, bind, Except.bind, pure, Except.pure] at hls
        cases hp : LoadedPass.read p with
        | error e => simp [hp] at hls
        | ok l =>
            cases hps : ps.mapM LoadedPass.read with
            | error e => simp [hp, hps] at hls
            | ok ls' =>
                simp only [hp, hps, Except.ok.injEq] at hls
                rw [← hls, List.map_cons, hread hp, ih ls' hps]
  exact hall _ _ h.passes

/-- A dispatch runs the pass of the graph at its place. -/
theorem LoadedGraph.Ready.pass_of_mem_jobs {g : LoadedGraph} (h : g.Ready) {env : Env} {j : Job}
    (hj : j ∈ g.jobs env) : g.graph.passes[j.place]? = some j.pass := by
  rw [← h.map_pass, List.getElem?_map]
  exact LoadedGraph.pass_of_mem_jobs hj

/-- The surfaces are tidy and the graph, if there is one, is ready. -/
structure Executor.Tidied {β : Type} (e : Executor β) : Prop where
  surfaces : Tidy e.surfaces
  current : ∀ g, e.current = some g → g.Ready

/-- Every slot that is listed carries its number and its spec. -/
theorem slotIds_get? {a : Graph.Allocation} {i : Nat} {t : String} (h : (slotIds a)[i]? = some t) :
    ∃ spec, t = Executor.slotId i spec := by
  simp only [slotIds, List.getElem?_map, List.getElem?_zipIdx, Option.map_map,
    Option.map_eq_some_iff] at h
  obtain ⟨spec, -, rfl⟩ := h
  exact ⟨spec, by simp⟩

/-- Different slots of an allocation are different stored textures. -/
theorem slotIds_inj {a : Graph.Allocation} {i j : Nat} {t : String} (hi : (slotIds a)[i]? = some t)
    (hj : (slotIds a)[j]? = some t) : i = j := by
  obtain ⟨spec, rfl⟩ := slotIds_get? hi
  obtain ⟨spec', heq⟩ := slotIds_get? hj
  exact slotId_inj heq

/-- What the steps of a list keep, the whole list keeps, whether it stops or not. -/
theorem runList_keeps_of_mem {α σ ε : Type} {f : σ → α → σ × Option ε} (P : σ → Prop) (as : List α)
    (hstep : ∀ s, ∀ a ∈ as, P s → P (f s a).1) (s : σ) (h : P s) : P (runList f s as).1 := by
  induction as generalizing s with
  | nil => exact h
  | cons a as ih =>
      have hone := hstep s a List.mem_cons_self h
      rw [runList]
      cases hs : f s a with
      | mk s' r =>
          rw [hs] at hone
          cases r with
          | none => exact ih (fun s a ha => hstep s a (List.mem_cons_of_mem _ ha)) s' hone
          | some e => exact hone

theorem runList_keeps {α σ ε : Type} {f : σ → α → σ × Option ε} (P : σ → Prop)
    (hstep : ∀ s a, P s → P (f s a).1) (as : List α) (s : σ) (h : P s) : P (runList f s as).1 :=
  runList_keeps_of_mem P as (fun s a _ => hstep s a) s h

namespace Tidy

variable {s : Table BufferPair} {id : String} {b : BufferPair}

/-- A well-named pair may be recorded. -/
theorem insert (h : Tidy s) (hp : Graph.isPersistent id = true) (hb : b.Named id) :
    Tidy (s.insert id b) := by
  intro a c hc
  rw [Table.get?_insert] at hc
  split at hc
  · next heq =>
      obtain rfl := Option.some.inj hc
      exact heq ▸ ⟨hp, hb⟩
  · exact h a c hc

/-- Buffers that change places or are marked keep their names. -/
theorem map (h : Tidy s) {f : String → BufferPair → BufferPair}
    (hf : ∀ id b, b.Named id → (f id b).Named id) : Tidy (s.map f) := by
  intro a c hc
  rw [Table.get?_map, Option.map_eq_some_iff] at hc
  obtain ⟨b, hb, rfl⟩ := hc
  exact ⟨(h a b hb).1, hf a b (h a b hb).2⟩

/-- Well-named pairs may be recorded. -/
theorem insertAll (bs : List BufferPair) (h : Tidy s)
    (hbs : ∀ b ∈ bs, Graph.isPersistent b.id = true ∧ b.Named b.id) :
    Tidy (bs.foldl (fun t b => t.insert b.id b) s) := by
  induction bs generalizing s with
  | nil => exact h
  | cons b bs ih =>
      obtain ⟨hp, hb⟩ := hbs b List.mem_cons_self
      exact ih (h.insert hp hb) fun c hc => hbs c (List.mem_cons_of_mem b hc)

end Tidy

namespace Executor

variable {β : Type}

/-- A call that changes neither the surfaces nor the graph. -/
def SameScene (e e' : Executor β) : Prop := e'.surfaces = e.surfaces ∧ e'.current = e.current

theorem SameScene.trans {e e' e'' : Executor β} (h : SameScene e e') (h' : SameScene e' e'') :
    SameScene e e'' :=
  ⟨h'.1.trans h.1, h'.2.trans h.2⟩

theorem SameScene.tidied {e e' : Executor β} (h : SameScene e e') (ht : e.Tidied) : e'.Tidied :=
  ⟨h.1 ▸ ht.surfaces, h.2 ▸ ht.current⟩

/-- Newly made surfaces are persistent and well-named. -/
theorem newSurfaces_named (e : Executor β) (g : Graph) :
    ∀ b ∈ e.newSurfaces g, Graph.isPersistent b.id = true ∧ b.Named b.id := by
  intro b hb
  obtain ⟨id, hid, rfl⟩ := List.mem_map.1 hb
  have hp : Graph.isPersistent id = true := (List.mem_filter.1 (List.mem_filter.1 hid).1).2
  exact ⟨hp, BufferPair.named_ofSurface id _⟩

/-- The surfaces after loading: those of the graph are added. -/
theorem get?_newSurfaces (e : Executor β) (g : Graph) (id : String) :
    ((e.newSurfaces g).foldl (fun t (b : BufferPair) => t.insert b.id b) e.surfaces).get? id =
      (e.surfaces.get? id).or
        (if id ∈ g.surfaces then some (.ofSurface id (g.textures.getD id .surface)) else none) := by
  have hfold : ∀ (ids : List String) (t : Table BufferPair),
      ((ids.map fun id => BufferPair.ofSurface id (g.textures.getD id .surface)).foldl
        (fun t (b : BufferPair) => t.insert b.id b) t).get? id =
        if id ∈ ids then some (.ofSurface id (g.textures.getD id .surface)) else t.get? id := by
    intro ids
    induction ids with
    | nil => simp
    | cons a ids ih =>
        intro t
        rw [List.map_cons, List.foldl_cons, ih, Table.get?_insert]
        by_cases ha : id = a
        · subst ha
          simp [BufferPair.ofSurface]
        · have ha' : ¬ id = (BufferPair.ofSurface a (g.textures.getD a .surface)).id := ha
          simp [ha, ha']
  rw [newSurfaces, hfold]
  cases hs : e.surfaces.get? id with
  | none => simp [Table.contains, hs]
  | some b => simp [Table.contains, hs]

variable [Backend β]

theorem submit_scene (e : Executor β) (c : Request) : SameScene e (e.submit c).1 := ⟨rfl, rfl⟩

/-- Discarding textures leaves the scene alone. -/
theorem discard_scene (e : Executor β) (ids : List String) : SameScene e (e.discard ids) := by
  unfold discard
  induction ids generalizing e with
  | nil => exact ⟨rfl, rfl⟩
  | cons id ids ih => exact ih _

/-- Compiling programs leaves the scene alone. -/
theorem compilePrograms_scene (e : Executor β) (g : Graph) :
    SameScene e (e.compilePrograms g).1 := by
  have hall : SameScene e (runList compileProgram e (e.changedPrograms g)).1 :=
    runList_keeps (SameScene e) (fun _ _ h => h) _ e ⟨rfl, rfl⟩
  unfold compilePrograms
  dsimp only
  cases hr : runList compileProgram e (e.changedPrograms g) with
  | mk e' r =>
      rw [hr] at hall
      cases r <;> exact hall

/-- Creating textures leaves the scene alone. -/
theorem createTextures_scene (ts : List (String × TextureSpec)) (e : Executor β)
    (done : List String) :
    SameScene e (e.createTextures done ts).1 := by
  induction ts generalizing e done with
  | nil => exact ⟨rfl, rfl⟩
  | cons t ts ih =>
      have hone : SameScene e (e.createTexture t).1 := by
        unfold createTexture
        have hsub := submit_scene e (.createTexture t.1 (t.2.sized e.width e.height))
        cases hs : e.submit (.createTexture t.1 (t.2.sized e.width e.height)) with
        | mk e' r =>
            rw [hs] at hsub
            cases r <;> exact hsub
      unfold createTextures
      cases hc : e.createTexture t with
      | mk e' r =>
          rw [hc] at hone
          cases r with
          | none =>
              exact hone.trans (ih e' (done ++ [t.1]))
          | some err =>
              exact hone.trans (discard_scene e' done)

/-- Loading keeps the scene when it fails.  When it succeeds the graph is ready, and
the new surfaces have the buffers of their names. -/
theorem load_tidied {e : Executor β} (h : e.Tidied) (g : Graph) (alloc : Option Graph.Allocation) :
    (e.load g alloc).1.Tidied := by
  unfold load
  dsimp only
  split
  · exact h
  · have hcompile := compilePrograms_scene e g
    cases hc : e.compilePrograms g with
    | mk e₁ r =>
        rw [hc] at hcompile
        cases r with
        | some err => exact hcompile.tidied h
        | none =>
            dsimp only
            cases hp : g.passes.mapM LoadedPass.read with
            | error err => exact hcompile.tidied h
            | ok passes =>
                dsimp only
                generalize hts : e₁.newTextures _ _ = ts
                have hcreate := createTextures_scene ts e₁ []
                cases hct : e₁.createTextures [] ts with
                | mk e₂ r =>
                    rw [hct] at hcreate
                    have h₂ : e₂.Tidied := (hcompile.trans hcreate).tidied h
                    cases r with
                    | some err => exact h₂
                    | none =>
                        refine (discard_scene _ _).tidied ⟨?_, ?_⟩
                        · exact h₂.surfaces.insertAll _ (newSurfaces_named e₁ g)
                        · intro g' hg'
                          obtain rfl := Option.some.inj hg'
                          exact ⟨hp, by simp [slotIds]⟩

/-- Loading that succeeds: the programs are compiled, the conditions read and the
textures created, then the graph takes the place of the one before. -/
theorem load_none {e e' : Executor β} {g : Graph} {alloc : Option Graph.Allocation}
    (h : e.load g alloc = (e', none)) :
    ∃ e₁ e₂ passes, e.disposed = false ∧ e.compilePrograms g = (e₁, none) ∧
      g.passes.mapM LoadedPass.read = .ok passes ∧
      e₁.createTextures []
        (e₁.newTextures ((alloc.getD g.allocate).specs.zipIdx.map fun (spec, i) =>
        (slotId i spec, spec)) (e₁.newSurfaces g)) = (e₂, none) ∧
      e' = ({ e₂ with
        surfaces := (e₁.newSurfaces g).foldl (fun t (b : BufferPair) => t.insert b.id b) e₂.surfaces
        current := some { graph := g, alloc := alloc.getD g.allocate, passes,
                          slots := slotIds (alloc.getD g.allocate) } } : Executor β).releaseSlots
        (slotIds (alloc.getD g.allocate)) := by
  unfold load at h
  dsimp only at h
  split at h
  · simp at h
  · next hd =>
      split at h
      · simp at h
      · next e₁ hcompile =>
          split at h
          · simp at h
          · next passes hpasses =>
              split at h
              · simp at h
              · next e₂ hcreate =>
                  refine ⟨e₁, e₂, passes, by simpa using hd, hcompile, hpasses, hcreate, ?_⟩
                  rw [← (Prod.mk.inj h).1]
                  simp [slotIds, Function.comp_def]

/-- A load is told by the renderer it leaves and by its answer. -/
theorem load_eq {e e' : Executor β} {g : Graph} {alloc : Option Graph.Allocation}
    {err : Option RenderError} (hstate : (e.load g alloc).1 = e')
    (hanswer : (e.load g alloc).2 = err) : e.load g alloc = (e', err) :=
  Prod.ext hstate hanswer

/-- The graph that was loaded is the running one. -/
theorem load_current {e e' : Executor β} {g : Graph} {alloc : Option Graph.Allocation}
    (h : e.load g alloc = (e', none)) :
    ∃ passes, e'.current = some { graph := g, alloc := alloc.getD g.allocate, passes,
                                  slots := slotIds (alloc.getD g.allocate) } := by
  obtain ⟨e₁, e₂, passes, -, -, -, -, rfl⟩ := load_none h
  exact ⟨passes, (discard_scene _ _).2⟩

/-- The surfaces that were there stay as they are, and the new ones join them. -/
theorem load_surfaces {e e' : Executor β} {g : Graph} {alloc : Option Graph.Allocation}
    (h : e.load g alloc = (e', none)) :
    e'.surfaces = (e.newSurfaces g).foldl (fun t b => t.insert b.id b) e.surfaces := by
  obtain ⟨e₁, e₂, passes, -, hcompile, -, hcreate, rfl⟩ := load_none h
  have hcompiled := (compilePrograms_scene e g).1
  rw [hcompile] at hcompiled
  have hnew : e₁.newSurfaces g = e.newSurfaces g := by rw [newSurfaces, newSurfaces, hcompiled]
  generalize e₁.newTextures _ _ = ts at hcreate
  have hcreated := (createTextures_scene ts e₁ []).1
  rw [hcreate] at hcreated
  refine (discard_scene _ _).1.trans ?_
  show (e₁.newSurfaces g).foldl _ e₂.surfaces = _
  rw [hnew, hcreated, hcompiled]

end Executor

namespace Frame

variable {β : Type}

/-- The surfaces of the frame are tidy, and the graph of the renderer is the same. -/
def Keeps (current : Option LoadedGraph) (f : Frame β) : Prop :=
  Tidy f.exec.surfaces ∧ f.exec.current = current

variable {current : Option LoadedGraph} {f : Frame β}

/-- Binding an output to be written keeps the surfaces. -/
theorem Keeps.bindWrite (h : f.Keeps current) (pass id : String) :
    (f.bindWrite pass id).1.Keeps current := by
  cases hs : f.exec.surfaces.get? id with
  | none =>
      rw [bindWrite_stored hs]
      exact h
  | some b =>
      rw [bindWrite_surface hs]
      obtain ⟨hp, hb⟩ := h.1 id b hs
      refine ⟨h.1.insert hp ?_, h.2⟩
      unfold turn
      split
      · exact hb.swap
      · exact hb

/-- Binding all outputs keeps the surfaces. -/
theorem Keeps.bindOutputs (pass : String) (outs : List (String × String)) (bound : Table String)
    (h : f.Keeps current) : (bindOutputs pass f bound outs).1.Keeps current := by
  induction outs generalizing f bound with
  | nil => exact h
  | cons o outs ih =>
      have hone := h.bindWrite pass o.2
      rw [Frame.bindOutputs]
      cases hw : f.bindWrite pass o.2 with
      | mk f' r =>
          rw [hw] at hone
          cases r with
          | error e => exact hone
          | ok t => exact ih _ hone

/-- Committing one surface keeps the others. -/
theorem Keeps.commitOne (h : f.Keeps current) (id : String) : (f.commitOne id).Keeps current := by
  unfold Frame.commitOne
  cases hs : f.exec.surfaces.get? id with
  | none => exact h
  | some b =>
      obtain ⟨hp, hb⟩ := h.1 id b hs
      dsimp only
      split
      · exact ⟨h.1.insert hp (hb.withDirty true), h.2⟩
      · exact h

/-- Committing the outputs of a pass keeps the surfaces. -/
theorem Keeps.commit (h : f.Keeps current) (outputs : Table String) :
    (f.commit outputs).Keeps current := by
  unfold Frame.commit
  induction outputs.values generalizing f with
  | nil => exact h
  | cons a as ih => exact ih (h.commitOne a)

variable [Backend β]

theorem Keeps.submit (h : f.Keeps current) {c : Request} {exec : Executor β} {r : Option Refusal}
    (hsub : f.exec.submit c = (exec, r)) : ({ f with exec } : Frame β).Keeps current := by
  obtain rfl : (f.exec.submit c).1 = exec := congrArg Prod.fst hsub
  exact h

/-- A dispatch keeps the surfaces. -/
theorem Keeps.dispatch (p : Graph.Pass) (u : Table Datum) (f : Frame β) (n : Int)
    (h : f.Keeps current) :
    (dispatch p u f n).1.Keeps current := by
  have hbound := h.bindOutputs p.id p.outputs.entries {}
  unfold Frame.dispatch
  cases hin : f.bindInputs p.id p.inputs with
  | error e => exact h
  | ok inputs =>
      dsimp only
      cases hout : Frame.bindOutputs p.id f {} p.outputs.entries with
      | mk f₁ r =>
          rw [hout] at hbound
          cases r with
          | error e => exact hbound
          | ok outputs =>
              dsimp only
              split
              · exact hbound
              · split
                · next exec r hsub => exact hbound.submit hsub
                · next exec hsub => exact (hbound.submit hsub).commit p.outputs

/-- A group of passes keeps the surfaces. -/
theorem Keeps.group (f : Frame β) (ps : List LoadedPass) (h : f.Keeps current) :
    (f.group ps).1.Keeps current := by
  have hpass : ∀ (round : Int) (f : Frame β) (p : LoadedPass), f.Keeps current →
      (Frame.pass round f p).1.Keeps current := by
    intro round f p h
    unfold Frame.pass
    dsimp only
    split
    · exact h
    · split
      · exact h
      · exact runList_keeps (Keeps current) (fun f n => Keeps.dispatch p.pass _ f n) _ f h
  unfold Frame.group
  cases ps with
  | nil => exact h
  | cons p ps =>
      dsimp only
      split
      · exact runList_keeps (Keeps current)
          (fun f round => runList_keeps (Keeps current) (hpass round) (p :: ps) f) _ f h
      · exact h

end Frame

namespace Executor

variable {β : Type} [Backend β]

theorem submit_tidied {e e' : Executor β} (h : e.Tidied) {c : Request} {r : Option Refusal}
    (hsub : e.submit c = (e', r)) : e'.Tidied := by
  obtain rfl : (e.submit c).1 = e' := congrArg Prod.fst hsub
  exact (submit_scene e c).tidied h

/-- An aborted frame leaves the executor tidy. -/
theorem abort_tidied {f : Frame β} (h : f.exec.Tidied) (err : RenderError) :
    (f.abort err).1.Tidied := by
  have hclean :
      ({ f.exec with surfaces := f.exec.surfaces.map fun _ b => { b with dirty := false } } :
      Executor β).Tidied := ⟨h.surfaces.map fun id b hb => hb.withDirty false, h.current⟩
  unfold Frame.abort
  dsimp only
  split <;> next hsub => exact submit_tidied hclean hsub

/-- Settling feedbacks keeps their names: only the mark is taken away. -/
theorem settle_tidied (bs : List BufferPair)
    (hbs : ∀ b ∈ bs, Graph.isPersistent b.id = true ∧ b.Named b.id) {e : Executor β}
    (h : e.Tidied) : (runList Frame.settle e bs).1.Tidied := by
  induction bs generalizing e with
  | nil => exact h
  | cons b bs ih =>
      obtain ⟨hp, hb⟩ := hbs b List.mem_cons_self
      rw [runList, Frame.settle]
      cases hs : e.submit (.copyTexture b.write b.read) with
      | mk e' r =>
          have hsub := submit_tidied h hs
          cases r with
          | some r => exact hsub
          | none =>
              refine ih (fun c hc => hbs c (List.mem_cons_of_mem b hc)) ?_
              exact ⟨hsub.surfaces.insert hp (hb.withDirty false), hsub.current⟩

/-- A finished frame leaves the executor tidy. -/
theorem finish_tidied {f : Frame β} (h : f.exec.Tidied) : f.finish.1.Tidied := by
  have hswap : ∀ e : Executor β, e.Tidied → ({ e with
      surfaces := e.surfaces.map fun id b => if f.written.contains id then b.swap else b
      frames := e.frames + 1 } : Executor β).Tidied := by
    intro e he
    refine ⟨he.surfaces.map fun id b hb => ?_, he.current⟩
    split
    · exact hb.swap
    · exact hb
  unfold Frame.finish
  cases hs : f.exec.submit .endFrame with
  | mk e r =>
      have hend := submit_tidied h hs
      cases r with
      | some r => exact hend
      | none =>
          dsimp only
          have hdirty : ∀ b ∈ e.surfaces.values.filter (·.dirty),
              Graph.isPersistent b.id = true ∧ b.Named b.id := by
            intro b hb
            obtain ⟨id, hid⟩ := Table.mem_values_iff.1 (List.mem_filter.1 hb).1
            obtain ⟨hp, hn⟩ := hend.surfaces id b hid
            exact hn.1.symm ▸ ⟨hp, hn⟩
          have hsettled := settle_tidied _ hdirty hend
          cases hr : runList Frame.settle e (e.surfaces.values.filter (·.dirty)) with
          | mk e₁ r =>
              rw [hr] at hsettled
              cases r with
              | some err => exact hsettled
              | none =>
                  dsimp only
                  cases f.shown? with
                  | none => exact hswap e₁ hsettled
                  | some t =>
                      dsimp only
                      cases hp : e₁.submit (.present t) with
                      | mk e₂ r =>
                          have hshown := submit_tidied hsettled hp
                          cases r with
                          | some r => exact hshown
                          | none => exact hswap e₂ hshown

/-- A frame keeps the surfaces tidy, whether it succeeds or not. -/
theorem frame_tidied {e : Executor β} (h : e.Tidied) (state : FrameState) :
    (e.frame state).1.Tidied := by
  cases hd : e.disposed with
  | true =>
      unfold frame
      rw [hd]
      exact h
  | false =>
      cases hcur : e.current with
      | none =>
          unfold frame
          rw [hd, hcur]
          exact h
      | some g =>
          cases hs : e.submit (.beginFrame (e.frameState state)) with
          | mk e₁ r =>
              have hbegin := submit_tidied h hs
              cases r with
              | some r =>
                  unfold frameState at hs
                  unfold frame
                  rw [hd, hcur]
                  dsimp only
                  rw [hs]
                  exact hbegin
              | none =>
                  rw [frame_eq hd hcur hs]
                  have hgroups :=
                    runList_keeps (f := Frame.group) (Frame.Keeps e₁.current) Frame.Keeps.group
                    (Frame.stepGroups g.passes) (Frame.opened e₁ g (e.frameState state))
                    ⟨hbegin.surfaces, rfl⟩
                  cases hr : runList Frame.group (Frame.opened e₁ g (e.frameState state))
                      (Frame.stepGroups g.passes) with
                  | mk f r =>
                      rw [hr] at hgroups
                      have hexec : f.exec.Tidied := ⟨hgroups.1, hgroups.2 ▸ hbegin.current⟩
                      cases r with
                      | some err => exact abort_tidied hexec err
                      | none => exact finish_tidied hexec

/-- Resizing keeps the executor tidy. -/
theorem resize_tidied {e : Executor β} (h : e.Tidied) (width height : Int) :
    (e.resize width height).1.Tidied := by
  have hrecreate : ∀ (e : Executor β) (t : String × TextureSpec), e.Tidied →
      (e.recreate t).1.Tidied := by
    intro e t he
    unfold recreate
    cases hs : e.submit (.destroyTexture t.1) with
    | mk e₁ r =>
        have hgone := submit_tidied he hs
        cases r with
        | some r => exact hgone
        | none => exact (submit_scene e₁ _).tidied hgone
  unfold resize
  split
  · exact h
  · cases hs : e.submit (.resize width height) with
    | mk e₁ r =>
        have hsized := submit_tidied h hs
        cases r with
        | some r => exact hsized
        | none =>
            exact runList_keeps (f := recreate) Tidied hrecreate _ _ ⟨hsized.surfaces,
              hsized.current⟩

/-- Disposing leaves the executor tidy. -/
theorem dispose_tidied {e : Executor β} (h : e.Tidied) : e.dispose.1.Tidied := by
  unfold dispose
  split
  · exact h
  · refine (submit_scene _ _).tidied ⟨?_, ?_⟩
    · intro id b hb
      simp at hb
    · intro g hg
      simp at hg

/-- The renderers that can be reached by calls, whatever their outcome. -/
inductive Reachable : Executor β → Prop
  | start {b b' : β} {width height : Int} {e : Executor β}
      (h : Executor.start b width height = (b', .ok e)) : Reachable e
  | load {e : Executor β} (h : Reachable e) (g : Graph) (alloc : Option Graph.Allocation) :
      Reachable (e.load g alloc).1
  | frame {e : Executor β} (h : Reachable e) (state : FrameState) : Reachable (e.frame state).1
  | resize {e : Executor β} (h : Reachable e) (width height : Int) : Reachable
      (e.resize width height).1
  | dispose {e : Executor β} (h : Reachable e) : Reachable e.dispose.1

/-- A renderer starts with nothing loaded and nothing remembered. -/
theorem start_fresh {b b' : β} {width height : Int} {e : Executor β}
    (h : Executor.start b width height = (b', .ok e)) :
    ∃ w h : Int, e = { backend := b', width := w, height := h } := by
  unfold Executor.start at h
  dsimp only at h
  split at h
  · simp at h
  · obtain ⟨rfl, he⟩ := Prod.mk.inj h
    exact ⟨_, _, (Except.ok.inj he).symm⟩

/-- Every renderer that can be reached is tidy. -/
theorem tidied_of_reachable {e : Executor β} (h : Reachable e) : e.Tidied := by
  induction h with
  | start h =>
      obtain ⟨w, h, rfl⟩ := start_fresh h
      exact ⟨by intro id b hb; simp at hb, by simp⟩
  | load _ g alloc ih => exact load_tidied ih g alloc
  | frame _ state ih => exact frame_tidied ih state
  | resize _ width height ih => exact resize_tidied ih width height
  | dispose _ ih => exact dispose_tidied ih

end Executor

end EffectChain
