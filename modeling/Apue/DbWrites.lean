import Apue.DbSteps
import Apue.DbLists

/-!
The writes of the database library, one theorem for each kind: what the ghost
state becomes and why the outline is kept. Overwriting and blanking data,
unlinking a record from its chain, pushing it on the free list and repairing the
chain make up a deletion; taking a record off the free list, giving it a key
and linking it, or appending data and record, make up a store.
-/
namespace Apue.Db

open Programs Decimal ByteFiles Pointers Threads

variable {P : Type}

theorem Change.refl (p : P) (g : Ghost P) : Change p g g where
  held := rfl
  expect := rfl
  abs := rfl
  chain _ _ := rfl
  free _ := ⟨rfl, rfl⟩
  cells _ _ _ := ⟨rfl, rfl⟩
  recs _ _ _ := ⟨rfl, rfl⟩
  places _ ho := Or.inl ⟨ho, rfl⟩
  made _ _ _ := Iff.rfl
  made_dat _ _ _ _ _ := rfl
  offs := List.prefix_rfl
  offs_eq _ := rfl
  doffs := List.prefix_rfl
  doffs_eq _ := rfl
  dat_size _ _ := rfl
  fixed _ _ := ⟨rfl, fun _ _ => rfl⟩

/-- The cell `x` is not the one that a deletion under way has yet to write. -/
def Deletion.Spares (del : Deletion) (x : ℕ) : Prop := ∀ h c v, del = .unlinked h c v → c ≠ x

theorem Deletion.links_of_spares {del : Deletion} {x : ℕ} (h : del.Spares x) (ptr : ℕ → ℕ) :
    del.links ptr x = ptr x := by
  cases del with
  | idle => rfl
  | blanked o => rfl
  | unlinked i c v => exact Function.update_of_ne (h i c v rfl).symm _ _

theorem Deletion.links_update {del : Deletion} {x : ℕ} (h : del.Spares x) (ptr : ℕ → ℕ) (v : ℕ) :
    del.links (Function.update ptr x v) = Function.update (del.links ptr) x v := by
  cases del with
  | idle => rfl
  | blanked o => rfl
  | unlinked i c v' => exact Function.update_comm (h i c v' rfl).symm _ _ _

theorem LocksOk.spares {locks : LockTable P} {held : P → Held} {place : ℕ → Place P}
    {del : Deletion} (hl : LocksOk locks held place del) {x : ℕ}
    (hx : ∀ h, place x = .chain h → ∀ p, held p .free = some .wrlck →
      held p (.chain h) = some .wrlck → False) : del.Spares x := by
  rintro h c v rfl rfl
  obtain ⟨-, hpl, p, hfree, hchain⟩ := hl.deleting
  exact hx h hpl p hfree hchain

section Data

variable {p : P} {g : Ghost P} {o : ℕ} {data : List Byte}

/-- Overwriting the data of a record that `p` owns. -/
theorem Change.setDat (hrec : Records g.st g.maker) (ho : o ∈ g.st.offs)
    (how : Owns (g.held p) p (g.place o)) (hlen : data.length + 1 = (g.st.body o).datlen)
    {del : Deletion}
    (hdel : g.held p .free ≠ some .wrlck → del = g.del) :
    Change p g { g with st := g.st.setDat (g.st.body o).datoff data, del := del } :=
  { Change.refl p g with
    free := fun hf => ⟨rfl, hdel hf⟩
    recs := fun a ha hnot => by
      refine ⟨rfl, Function.update_of_ne (fun he => hnot ?_) _ _⟩
      rwa [hrec.dat_inj a ha o ho he]
    made_dat := fun q _ d hd hm => by
      refine Function.update_of_ne (fun he => ?_) _ _
      rw [(hrec.maker_iff d hd).mpr ⟨o, ho, he.symm⟩] at hm
      cases hm
    dat_size := fun d _ => by
      change (Function.update g.st.dat _ data d).length = _
      by_cases hd : d = (g.st.body o).datoff
      · rw [hd, Function.update_self]
        have := hrec.dat_len o ho
        omega
      · rw [Function.update_of_ne hd] }

/-- Changing a pointer that `p` owns and moving records between its places. -/
theorem Change.setPtr {x v : ℕ} {place : ℕ → Place P} {chain : ℕ → List ℕ}
    {free : List ℕ} {del : Deletion} (hx : Owns (g.held p) p (g.place x))
    (hplace : ∀ a, place a = g.place a ∨
      Owns (g.held p) p (g.place a) ∧ Owns (g.held p) p (place a))
    (hchain : ∀ h, g.held p (.chain h) ≠ some .wrlck → chain h = g.chain h)
    (hfree : g.held p .free ≠ some .wrlck → free = g.free ∧ del = g.del) :
    Change p g { g with
      st := g.st.setPtr x v, place := place, chain := chain, free := free, del := del } :=
  { Change.refl p g with
    chain := hchain
    free := hfree
    cells := fun a _ hnot => by
      refine ⟨(hplace a).resolve_right fun h => hnot h.1, Function.update_of_ne (fun he => ?_) _ _⟩
      exact hnot (he ▸ hx)
    places := fun a ha => (hplace a).imp (fun h => ⟨ha, h⟩) And.right }

/-- Moving the record `o` to another place. -/
theorem place_update {x : Place P}
    (ho : Owns (g.held p) p (g.place o)) (hx : Owns (g.held p) p x) (a : ℕ) :
    Function.update g.place o x a = g.place a ∨
      Owns (g.held p) p (g.place a) ∧ Owns (g.held p) p (Function.update g.place o x a) := by
  by_cases ha : a = o
  · subst ha
    rw [Function.update_self]
    exact Or.inr ⟨ho, hx⟩
  · exact Or.inl (Function.update_of_ne ha _ _)

/-- Rewriting a record that `p` owns. -/
theorem Change.setRec {v : ℕ} {b : Body} {place : ℕ → Place P} {chain : ℕ → List ℕ}
    {free : List ℕ} {del : Deletion} (hx : Owns (g.held p) p (g.place o))
    (hlen : b.text.length = (g.st.body o).text.length)
    (hkey : g.held p .free ≠ some .wrlck → Blank (g.st.body o).key)
    (hplace : ∀ a, place a = g.place a ∨
      Owns (g.held p) p (g.place a) ∧ Owns (g.held p) p (place a))
    (hchain : ∀ h, g.held p (.chain h) ≠ some .wrlck → chain h = g.chain h)
    (hfree : g.held p .free ≠ some .wrlck → free = g.free ∧ del = g.del) :
    Change p g { g with
      st := g.st.setRec o v b, place := place, chain := chain, free := free, del := del } :=
  { Change.refl p g with
    chain := hchain
    free := hfree
    cells := fun a _ hnot => by
      refine ⟨(hplace a).resolve_right fun h => hnot h.1, Function.update_of_ne (fun he => ?_) _ _⟩
      exact hnot (he ▸ hx)
    recs := fun a _ hnot => by
      refine ⟨Function.update_of_ne (fun he => ?_) _ _, rfl⟩
      exact hnot (he ▸ hx)
    places := fun a ha => (hplace a).imp (fun h => ⟨ha, h⟩) And.right
    fixed := fun a _ => by
      change (Function.update g.st.body o b a).text.length = _ ∧
        (_ → _ → Function.update g.st.body o b a = _)
      by_cases hao : a = o
      · subst hao
        rw [Function.update_self]
        exact ⟨hlen, fun hf hb => absurd (hkey hf) hb⟩
      · rw [Function.update_of_ne hao]
        exact ⟨rfl, fun _ _ => rfl⟩ }

/-- A data record that no index record refers to yet. -/
theorem Change.addDat (hrec : Records g.st g.maker)
    (hend : g.held p .datEnd = some .wrlck) (data : List Byte) :
    Change p g { g with
      st := g.st.addDat data
      maker := Function.update g.maker g.st.datFile.length (some p) } :=
  { Change.refl p g with
    recs := fun a ha _ => by
      exact ⟨rfl, Function.update_of_ne (hrec.ok.ne_new_doff (hrec.dat_mem a ha)) _ _⟩
    made := fun q hq d => by
      change d ∈ g.st.doffs ++ [g.st.datFile.length] ∧ Function.update g.maker _ _ d = _ ↔ _
      by_cases hd : d = g.st.datFile.length
      · subst hd
        rw [Function.update_self]
        constructor
        · rintro ⟨-, he⟩
          exact absurd (Option.some.inj he).symm hq
        · rintro ⟨hmem, -⟩
          exact absurd hmem hrec.ok.new_doff
      · rw [Function.update_of_ne hd, List.mem_append, List.mem_singleton]
        exact and_congr_left' (or_iff_left hd)
    made_dat := fun q _ d hd _ => Function.update_of_ne (hrec.ok.ne_new_doff hd) _ _
    doffs := List.prefix_append _ _
    doffs_eq := fun hf => absurd hend hf
    dat_size := fun d hd => by
      change (Function.update g.st.dat _ data d).length = _
      rw [Function.update_of_ne (hrec.ok.ne_new_doff hd)] }

/-- An index record for data that `p` has written. -/
theorem Change.addRec (hrec : Records g.st g.maker)
    (hend : g.held p .idxEnd = some .wrlck) (v : ℕ) {b : Body}
    (hmaker : g.maker b.datoff = some p) :
    Change p g { g with
      st := g.st.addRec v b
      place := Function.update g.place g.st.idxFile.length (.proc p)
      maker := Function.update g.maker b.datoff none } :=
  { Change.refl p g with
    cells := fun a ha _ => by
      have hne : a ≠ g.st.idxFile.length := by
        rintro rfl
        rcases ha with ha | ha
        · have h₁ := head_lt ha
          have h₂ := hrec.ok.new_off_ge
          omega
        · exact hrec.ok.new_off ha
      exact ⟨Function.update_of_ne hne _ _, Function.update_of_ne hne _ _⟩
    recs := fun a ha _ => ⟨Function.update_of_ne (hrec.ok.ne_new_off ha) _ _, rfl⟩
    places := fun a ha => by
      rcases List.mem_append.mp ha with ha | ha
      · exact Or.inl ⟨ha, Function.update_of_ne (hrec.ok.ne_new_off ha) _ _⟩
      · obtain rfl := List.mem_singleton.mp ha
        right
        change Owns _ p (Function.update g.place _ _ g.st.idxFile.length)
        rw [Function.update_self]
        exact rfl
    made := fun q hq d => by
      change d ∈ g.st.doffs ∧ Function.update g.maker _ _ d = _ ↔ _
      by_cases hd : d = b.datoff
      · subst hd
        rw [Function.update_self, hmaker]
        simp only [reduceCtorEq, and_false, Option.some.injEq, false_iff, not_and]
        exact fun _ he => hq he.symm
      · rw [Function.update_of_ne hd]
    offs := List.prefix_append _ _
    offs_eq := fun hf => absurd hend hf
    fixed := fun a ha => by
      change (Function.update g.st.body _ b a).text.length = _ ∧
        (_ → _ → Function.update g.st.body _ b a = _)
      rw [Function.update_of_ne (hrec.ok.ne_new_off ha)]
      exact ⟨rfl, fun _ _ => rfl⟩ }

end Data

section Moves

variable [DecidableEq P] {fuel : ℕ} {allowed : P → Op → Prop} {w : DbWorld P} {p : P}
variable {s : Shared P} (op : Op) {c : Call}

/-- Overwriting the data of a record that `p` owns, `del` being the deletion
under way afterwards. -/
private theorem moves_setDat (del : Deletion) (hinv : Inv fuel allowed w) {o : ℕ}
    {data : List Byte} (ho : o ∈ w.ghost.st.offs)
    (how : Owns (w.ghost.held p) p (w.ghost.place o))
    (hdata : ∀ c ∈ data, c ≠ 0) (hlen : data.length + 1 = (w.ghost.st.body o).datlen)
    (hdel : w.ghost.held p .free ≠ some .wrlck → del = w.ghost.del)
    (hlinks : ∀ ptr, del.links ptr = w.ghost.del.links ptr)
    (hlocked : del.Locked w.ghost.held w.ghost.place)
    (hother : ∀ a, a ≠ o → del ≠ .blanked a → w.ghost.del ≠ .blanked a)
    (hbegun : ∀ h, w.ghost.place o = .chain h → del ≠ .blanked o →
      Begun w.hist (w.ghost.st.body o).key data)
    (hmaking : w.ghost.place o = .proc p → ¬ Blank (w.ghost.st.body o).key →
      Making w.hist p o (w.ghost.st.body o).key data)
    (hfiles : s.files = (w.ghost.st.setDat (w.ghost.st.body o).datoff data).files)
    (hlocks : s.locks = w.shared.locks) (hq : Quiet c) :
    (outline fuel allowed).Moves p w (w.after (.sys p op c) s
      { w.ghost with
        st := w.ghost.st.setDat (w.ghost.st.body o).datoff data
        del := del }) := by
  have hc := Change.setDat hinv.records ho how hlen hdel
  have hself : (w.ghost.st.setDat (w.ghost.st.body o).datoff data).dat
      (w.ghost.st.body o).datoff = data := Function.update_self _ _ _
  have hne : ∀ a ∈ w.ghost.st.offs, a ≠ o →
      (w.ghost.st.setDat (w.ghost.st.body o).datoff data).dat (w.ghost.st.body a).datoff =
        w.ghost.st.dat (w.ghost.st.body a).datoff := fun a ha hao =>
    Function.update_of_ne (fun he => hao (hinv.records.dat_inj a ha o ho he)) _ _
  refine hc.moves hinv hfiles hlocks (hinv.records.setDat ho hdata hlen) ?_ hlocked ?_ op hq
  · rw [hlinks]
    exact hinv.lists
  · refine hc.origins hinv.locks hinv.origins ?_ ?_
    · intro a ha i _ hpla hda
      by_cases hao : a = o
      · subst hao
        exact hself.symm ▸ hbegun i hpla hda
      · exact hne a ha hao ▸ hinv.origins.begun a ha i hpla (hother a hao hda)
    · intro a ha hpla hb
      by_cases hao : a = o
      · subst hao
        exact hself.symm ▸ hmaking hpla hb
      · exact hne a ha hao ▸ hinv.origins.making a ha p hpla hb

/-- The first step of a deletion: the data is overwritten with blanks. -/
theorem moves_blankData (hinv : Inv fuel allowed w) {h o : ℕ} {data : List Byte}
    (hchain : w.ghost.held p (.chain h) = some .wrlck)
    (hfree : w.ghost.held p .free = some .wrlck) (hdel : w.ghost.del = .idle)
    (ho : o ∈ w.ghost.st.offs) (hpl : w.ghost.place o = .chain h)
    (hdata : ∀ c ∈ data, c ≠ 0) (hlen : data.length + 1 = (w.ghost.st.body o).datlen)
    (hfiles : s.files = (w.ghost.st.setDat (w.ghost.st.body o).datoff data).files)
    (hlocks : s.locks = w.shared.locks) (hq : Quiet c) :
    (outline fuel allowed).Moves p w (w.after (.sys p op c) s
      { w.ghost with
        st := w.ghost.st.setDat (w.ghost.st.body o).datoff data
        del := .blanked o }) := by
  refine moves_setDat op (.blanked o) hinv ho ?_ hdata hlen (fun hf => absurd hfree hf) ?_
    ⟨p, h, hfree, hchain, hpl⟩ ?_ (fun _ _ hne => absurd rfl hne) ?_ hfiles hlocks hq
  · rw [hpl]
    exact hchain
  · intro ptr
    rw [hdel]
    rfl
  · intro a _ _
    rw [hdel]
    exact Deletion.noConfusion
  · intro hcon
    rw [hpl] at hcon
    cases hcon

/-- db_store replaces data by data of the same size. -/
theorem moves_overwrite (hinv : Inv fuel allowed w) {h o : ℕ} {data : List Byte}
    (hchain : w.ghost.held p (.chain h) = some .wrlck) (ho : o ∈ w.ghost.st.offs)
    (hpl : w.ghost.place o = .chain h)
    (hdata : ∀ c ∈ data, c ≠ 0) (hlen : data.length + 1 = (w.ghost.st.body o).datlen)
    (hbegun : Begun w.hist (w.ghost.st.body o).key data)
    (hfiles : s.files = (w.ghost.st.setDat (w.ghost.st.body o).datoff data).files)
    (hlocks : s.locks = w.shared.locks) (hq : Quiet c) :
    (outline fuel allowed).Moves p w (w.after (.sys p op c) s
      { w.ghost with st := w.ghost.st.setDat (w.ghost.st.body o).datoff data }) := by
  refine moves_setDat op w.ghost.del hinv ho ?_ hdata hlen (fun _ => rfl) (fun _ => rfl)
    hinv.locks.deleting (fun _ _ hne => hne) (fun _ _ _ => hbegun) ?_ hfiles hlocks hq
  · rw [hpl]
    exact hchain
  · intro hcon
    rw [hpl] at hcon
    cases hcon

/-- db_store writes the data of a record that it has taken off the free list. -/
theorem moves_ownData (hinv : Inv fuel allowed w) {o : ℕ} {data : List Byte}
    (ho : o ∈ w.ghost.st.offs) (hpl : w.ghost.place o = .proc p)
    (hblank : Blank (w.ghost.st.body o).key)
    (hdata : ∀ c ∈ data, c ≠ 0) (hlen : data.length + 1 = (w.ghost.st.body o).datlen)
    (hfiles : s.files = (w.ghost.st.setDat (w.ghost.st.body o).datoff data).files)
    (hlocks : s.locks = w.shared.locks) (hq : Quiet c) :
    (outline fuel allowed).Moves p w (w.after (.sys p op c) s
      { w.ghost with st := w.ghost.st.setDat (w.ghost.st.body o).datoff data }) := by
  refine moves_setDat op w.ghost.del hinv ho ?_ hdata hlen (fun _ => rfl) (fun _ => rfl)
    hinv.locks.deleting (fun _ _ hne => hne) ?_ (fun _ hb => absurd hblank hb) hfiles hlocks hq
  · rw [hpl]
    exact rfl
  · intro h hcon
    rw [hpl] at hcon
    cases hcon

/-- The last step of a deletion: the cell before the record is repaired. -/
theorem moves_fix (hinv : Inv fuel allowed w) {h x v : ℕ}
    (hdel : w.ghost.del = .unlinked h x v)
    (hchain : w.ghost.held p (.chain h) = some .wrlck)
    (hfree : w.ghost.held p .free = some .wrlck) (hv : v ≤ PTR_MAX)
    (hfiles : s.files = (w.ghost.st.setPtr x v).files)
    (hlocks : s.locks = w.shared.locks) (hq : Quiet c) :
    (outline fuel allowed).Moves p w (w.after (.sys p op c) s
      { w.ghost with st := w.ghost.st.setPtr x v, del := .idle }) := by
  have hlock := hinv.locks.deleting
  rw [hdel] at hlock
  have hc : Change p w.ghost { w.ghost with st := w.ghost.st.setPtr x v, del := .idle } := by
    refine Change.setPtr ?_ (fun _ => Or.inl rfl) (fun _ _ => rfl) (fun hf => absurd hfree hf)
    rw [hlock.2.1]
    exact hchain
  refine hc.moves hinv hfiles hlocks (hinv.records.setPtr x hv) ?_ trivial ?_ op hq
  · have := hinv.lists
    rw [hdel] at this
    exact this
  · refine hc.origins hinv.locks hinv.origins ?_ ?_
    · intro a ha i _ hpla _
      exact hinv.origins.begun a ha i hpla (by rw [hdel]; exact Deletion.noConfusion)
    · intro a ha hpla hb
      exact hinv.origins.making a ha p hpla hb

omit [DecidableEq P] in
/-- A record whose place is not the one it was moved to is another one. -/
theorem of_update_place {place : ℕ → Place P} {o a : ℕ} {x y : Place P}
    (h : Function.update place o x a = y) (hxy : x ≠ y) : a ≠ o ∧ place a = y := by
  by_cases hao : a = o
  · subst hao
    rw [Function.update_self] at h
    exact absurd h hxy
  · rw [Function.update_of_ne hao] at h
    exact ⟨hao, h⟩

omit [DecidableEq P] in
/-- Moving a record that is on no chain does not matter to a deletion. -/
theorem Deletion.Locked.update {held : P → Held} {place : ℕ → Place P} {del : Deletion}
    (h : del.Locked held place) {o : ℕ} (ho : ∀ i, place o ≠ .chain i) (x : Place P) :
    del.Locked held (Function.update place o x) := by
  cases del with
  | idle => trivial
  | blanked a =>
    obtain ⟨q, i, hfree, hchain, hpl⟩ := h
    refine ⟨q, i, hfree, hchain, ?_⟩
    rw [Function.update_of_ne fun he : a = o => ho i (he ▸ hpl)]
    exact hpl
  | unlinked i c v =>
    obtain ⟨hi, hpl, hq⟩ := h
    refine ⟨hi, ?_, hq⟩
    rw [Function.update_of_ne fun he : c = o => ho i (he ▸ hpl)]
    exact hpl

/-- A deleted record becomes the head of the free list. -/
theorem moves_pushFree (hinv : Inv fuel allowed w) {o : ℕ}
    (hfree : w.ghost.held p .free = some .wrlck) (ho : o ∈ w.ghost.st.offs)
    (hpl : w.ghost.place o = .proc p) (hblank : Blank (w.ghost.st.body o).key)
    (hptr : w.ghost.st.ptr o = w.ghost.st.ptr FREE_OFF) (hle : o ≤ PTR_MAX)
    (hfiles : s.files = (w.ghost.st.setPtr FREE_OFF o).files)
    (hlocks : s.locks = w.shared.locks) (hq : Quiet c) :
    (outline fuel allowed).Moves p w (w.after (.sys p op c) s
      { w.ghost with
        st := w.ghost.st.setPtr FREE_OFF o
        place := Function.update w.ghost.place o .free
        free := o :: w.ghost.free }) := by
  have hL := hinv.lists
  have hnochain : ∀ i, w.ghost.place o ≠ .chain i := fun i => by rw [hpl]; nofun
  have hso : w.ghost.del.Spares o := hinv.locks.spares fun i hi => absurd hi (hnochain i)
  have hsf : w.ghost.del.Spares FREE_OFF := hinv.locks.spares fun i hi => by
    rw [hL.place_free] at hi
    cases hi
  have hc : Change p w.ghost { w.ghost with
      st := w.ghost.st.setPtr FREE_OFF o
      place := Function.update w.ghost.place o .free
      free := o :: w.ghost.free } := by
    refine Change.setPtr ?_ (place_update ?_ hfree) (fun _ _ => rfl) (fun hf => absurd hfree hf)
    · rw [hL.place_free]
      exact hfree
    · rw [hpl]
      exact rfl
  have hlists : Lists w.ghost.st.offs w.ghost.st.body (Function.update w.ghost.place o .free)
      w.ghost.chain (o :: w.ghost.free)
      (w.ghost.del.links (Function.update w.ghost.st.ptr FREE_OFF o)) := by
    rw [Deletion.links_update hsf]
    refine hL.pushFree (fun a ha => hinv.records.ok.not_head ha) ho hpl hblank ?_
    rw [Deletion.links_of_spares hso, Deletion.links_of_spares hsf, hptr]
  refine hc.moves hinv hfiles hlocks (hinv.records.setPtr _ hle) hlists
    (hinv.locks.deleting.update hnochain _) ?_ op hq
  refine hc.origins hinv.locks hinv.origins ?_ ?_
  · intro a ha i _ hpa hne
    change Function.update w.ghost.place o .free a = _ at hpa
    exact hinv.origins.begun a ha i (of_update_place hpa (nofun)).2 hne
  · intro a ha hpa hb
    change Function.update w.ghost.place o .free a = _ at hpa
    exact hinv.origins.making a ha p (of_update_place hpa (nofun)).2 hb

/-- db_store takes a record off the free list. -/
theorem moves_popFree (hinv : Inv fuel allowed w) {o : ℕ} {pre post : List ℕ}
    (hfree : w.ghost.held p .free = some .wrlck) (hdel : w.ghost.del = .idle)
    (hlist : w.ghost.free = pre ++ o :: post)
    (hfiles : s.files =
      (w.ghost.st.setPtr (lastCell FREE_OFF pre) (w.ghost.st.ptr o)).files)
    (hlocks : s.locks = w.shared.locks) (hq : Quiet c) :
    (outline fuel allowed).Moves p w (w.after (.sys p op c) s
      { w.ghost with
        st := w.ghost.st.setPtr (lastCell FREE_OFF pre) (w.ghost.st.ptr o)
        place := Function.update w.ghost.place o (.proc p)
        free := pre ++ post }) := by
  have hL := hinv.lists
  have hmem : o ∈ w.ghost.free := by
    rw [hlist]
    exact List.mem_append_right _ List.mem_cons_self
  obtain ⟨ho, hpl⟩ := (hL.mem_free o).mp hmem
  have hnochain : ∀ i, w.ghost.place o ≠ .chain i := fun i => by rw [hpl]; nofun
  have hlast := (hL.lastCell_free hlist).2
  have hc : Change p w.ghost { w.ghost with
      st := w.ghost.st.setPtr (lastCell FREE_OFF pre) (w.ghost.st.ptr o)
      place := Function.update w.ghost.place o (.proc p)
      free := pre ++ post } := by
    refine Change.setPtr ?_ (place_update ?_ ?_) (fun _ _ => rfl) (fun hf => absurd hfree hf)
    · rw [hlast]
      exact hfree
    · rw [hpl]
      exact hfree
    · exact rfl
  have hlists : Lists w.ghost.st.offs w.ghost.st.body
      (Function.update w.ghost.place o (.proc p)) w.ghost.chain (pre ++ post)
      (w.ghost.del.links (Function.update w.ghost.st.ptr (lastCell FREE_OFF pre)
        (w.ghost.st.ptr o))) := by
    have := hL.popFree (p := p) (fun a ha => hinv.records.ok.not_head ha) hlist
    rw [hdel] at this ⊢
    exact this
  refine hc.moves hinv hfiles hlocks (hinv.records.setPtr _ (hinv.records.ok.ptr_le o)) hlists
    (hinv.locks.deleting.update hnochain _) ?_ op hq
  refine hc.origins hinv.locks hinv.origins ?_ ?_
  · intro a ha i _ hpa hne
    change Function.update w.ghost.place o (.proc p) a = _ at hpa
    exact hinv.origins.begun a ha i (of_update_place hpa (nofun)).2 hne
  · intro a ha hpa hb
    by_cases hao : a = o
    · subst hao
      exact absurd (hL.key_blank a ho hpl) hb
    · refine hinv.origins.making a ha p ?_ hb
      exact (Function.update_of_ne hao _ _).symm.trans hpa

/-- A record becomes the head of its chain. -/
theorem moves_link (hinv : Inv fuel allowed w) {o h : ℕ} (hh : h < NHASH_DEF)
    (hchain : w.ghost.held p (.chain h) = some .wrlck)
    (hnofree : w.ghost.held p .free ≠ some .wrlck) (ho : o ∈ w.ghost.st.offs)
    (hpl : w.ghost.place o = .proc p) (hkey : KeyOk (w.ghost.st.body o).key)
    (hhash : hashOf (w.ghost.st.body o).key = h)
    (hnew : ∀ a ∈ w.ghost.chain h, (w.ghost.st.body a).key ≠ (w.ghost.st.body o).key)
    (hptr : w.ghost.st.ptr o = w.ghost.st.ptr (cell h)) (hle : o ≤ PTR_MAX)
    (hbegun : Begun w.hist (w.ghost.st.body o).key
      (w.ghost.st.dat (w.ghost.st.body o).datoff))
    (hfiles : s.files = (w.ghost.st.setPtr (cell h) o).files)
    (hlocks : s.locks = w.shared.locks) (hq : Quiet c) :
    (outline fuel allowed).Moves p w (w.after (.sys p op c) s
      { w.ghost with
        st := w.ghost.st.setPtr (cell h) o
        place := Function.update w.ghost.place o (.chain h)
        chain := Function.update w.ghost.chain h (o :: w.ghost.chain h) }) := by
  have hL := hinv.lists
  have hnochain : ∀ i, w.ghost.place o ≠ .chain i := fun i => by rw [hpl]; nofun
  have hso : w.ghost.del.Spares o := hinv.locks.spares fun i hi => absurd hi (hnochain i)
  have hsc : w.ghost.del.Spares (cell h) := hinv.locks.spares fun i hi q hqf hqc => by
    rw [hL.place_cell h hh] at hi
    obtain rfl := Place.chain.inj hi
    by_cases hqp : q = p
    · exact hnofree (hqp ▸ hqf)
    · exact nomatch (hinv.locks.compat q p hqp _ _ _ hqc hchain).1
  have hc : Change p w.ghost { w.ghost with
      st := w.ghost.st.setPtr (cell h) o
      place := Function.update w.ghost.place o (.chain h)
      chain := Function.update w.ghost.chain h (o :: w.ghost.chain h) } := by
    refine Change.setPtr ?_ (place_update ?_ hchain) (fun i hi => ?_) (fun _ => ⟨rfl, rfl⟩)
    · rw [hL.place_cell h hh]
      exact hchain
    · rw [hpl]
      exact rfl
    · exact Function.update_of_ne (fun he : i = h => hi (he ▸ hchain)) _ _
  have hlists : Lists w.ghost.st.offs w.ghost.st.body
      (Function.update w.ghost.place o (.chain h))
      (Function.update w.ghost.chain h (o :: w.ghost.chain h)) w.ghost.free
      (w.ghost.del.links (Function.update w.ghost.st.ptr (cell h) o)) := by
    rw [Deletion.links_update hsc]
    refine hL.link (fun a ha => hinv.records.ok.not_head ha) hh ho hpl hkey hhash hnew ?_
    rw [Deletion.links_of_spares hso, Deletion.links_of_spares hsc, hptr]
  refine hc.moves hinv hfiles hlocks (hinv.records.setPtr _ hle) hlists
    (hinv.locks.deleting.update hnochain _) ?_ op hq
  refine hc.origins hinv.locks hinv.origins ?_ ?_
  · intro a ha i _ hpa hne
    by_cases hao : a = o
    · subst hao
      exact hbegun
    · exact hinv.origins.begun a ha i ((Function.update_of_ne hao _ _).symm.trans hpa) hne
  · intro a ha hpa hb
    change Function.update w.ghost.place o (.chain h) a = _ at hpa
    exact hinv.origins.making a ha p (of_update_place hpa (nofun)).2 hb

/-- The second step of a deletion: the record leaves the chain with a blank
key, its pointer set to `f`. The cell before it still has its old value. -/
theorem moves_unlink (hinv : Inv fuel allowed w) {o h f : ℕ} {pre post : List ℕ}
    {key : List Byte} (hh : h < NHASH_DEF)
    (hchain : w.ghost.held p (.chain h) = some .wrlck)
    (hfree : w.ghost.held p .free = some .wrlck) (hdel : w.ghost.del = .blanked o)
    (hlist : w.ghost.chain h = pre ++ o :: post) (hblank : Blank key)
    (hlen : key.length = (w.ghost.st.body o).key.length) (hf : f ≤ PTR_MAX)
    (hfiles : s.files = (w.ghost.st.setRec o f ((w.ghost.st.body o).rekey key)).files)
    (hlocks : s.locks = w.shared.locks) (hq : Quiet c) :
    (outline fuel allowed).Moves p w (w.after (.sys p op c) s
      { w.ghost with
        st := w.ghost.st.setRec o f ((w.ghost.st.body o).rekey key)
        place := Function.update w.ghost.place o (.proc p)
        chain := Function.update w.ghost.chain h (pre ++ post)
        del := .unlinked h (lastCell (cell h) pre) (w.ghost.st.ptr o) }) := by
  have hL := hinv.lists
  have hmem : o ∈ w.ghost.chain h := by
    rw [hlist]
    exact List.mem_append_right _ List.mem_cons_self
  obtain ⟨ho, hpl⟩ := (hL.mem_chain h hh o).mp hmem
  have how : Owns (w.ghost.held p) p (w.ghost.place o) := by
    rw [hpl]
    exact hchain
  have hplain : Body.Plain key := fun c hc => by
    rw [hblank c hc]
    decide
  have hc : Change p w.ghost { w.ghost with
      st := w.ghost.st.setRec o f ((w.ghost.st.body o).rekey key)
      place := Function.update w.ghost.place o (.proc p)
      chain := Function.update w.ghost.chain h (pre ++ post)
      del := .unlinked h (lastCell (cell h) pre) (w.ghost.st.ptr o) } := by
    refine Change.setRec how (Body.length_text_rekey _ hlen) (fun hcon => absurd hfree hcon)
      (place_update how rfl) (fun i hi => ?_) (fun hcon => absurd hfree hcon)
    exact Function.update_of_ne (fun he : i = h => hi (he ▸ hchain)) _ _
  have hlists : Lists w.ghost.st.offs
      (Function.update w.ghost.st.body o ((w.ghost.st.body o).rekey key))
      (Function.update w.ghost.place o (.proc p))
      (Function.update w.ghost.chain h (pre ++ post)) w.ghost.free
      (Function.update (Function.update w.ghost.st.ptr o f) (lastCell (cell h) pre)
        (w.ghost.st.ptr o)) := by
    have := hL.unlink (p := p) (f := f) (b := (w.ghost.st.body o).rekey key)
      (fun a ha => hinv.records.ok.not_head ha) hh hlist
    rw [hdel] at this
    exact this
  have hlast : Function.update w.ghost.place o (.proc p) (lastCell (cell h) pre) = .chain h := by
    have hnodup := hL.nodup_chain h hh
    rw [hlist] at hnodup
    rcases List.mem_cons.mp (lastCell_mem (cell h) pre) with he | hm
    · rw [he, Function.update_of_ne (hinv.records.ok.ne_cell ho hh)]
      exact hL.place_cell h hh
    · have hne : lastCell (cell h) pre ≠ o := fun he =>
        (List.nodup_cons.mp (List.nodup_middle.mp hnodup)).1 (he ▸ List.mem_append_left _ hm)
      rw [Function.update_of_ne hne]
      refine ((hL.mem_chain h hh _).mp ?_).2
      rw [hlist]
      exact List.mem_append_left _ hm
  refine hc.moves hinv hfiles hlocks (hinv.records.rekey ho hf hplain hlen) hlists
    ⟨hh, hlast, p, hfree, hchain⟩ ?_ op hq
  have hbody : ∀ a, a ≠ o → (w.ghost.st.setRec o f ((w.ghost.st.body o).rekey key)).body a =
      w.ghost.st.body a := fun a hao => Function.update_of_ne hao _ _
  refine hc.origins hinv.locks hinv.origins ?_ ?_
  · intro a ha i _ hpa _
    change Function.update w.ghost.place o (.proc p) a = _ at hpa
    obtain ⟨hao, hpa'⟩ := of_update_place hpa (nofun)
    change Begun _ ((w.ghost.st.setRec o f _).body a).key
      (w.ghost.st.dat ((w.ghost.st.setRec o f _).body a).datoff)
    rw [hbody a hao]
    refine hinv.origins.begun a ha i hpa' ?_
    rw [hdel]
    exact fun he => hao (Deletion.blanked.inj he).symm
  · intro a ha hpa hb
    by_cases hao : a = o
    · subst hao
      refine absurd ?_ hb
      change Blank (Function.update w.ghost.st.body a _ a).key
      rw [Function.update_self]
      exact hblank
    · change ¬ Blank ((w.ghost.st.setRec o f _).body a).key at hb
      change Making _ p a ((w.ghost.st.setRec o f _).body a).key
        (w.ghost.st.dat ((w.ghost.st.setRec o f _).body a).datoff)
      rw [hbody a hao] at hb ⊢
      exact hinv.origins.making a ha p ((Function.update_of_ne hao _ _).symm.trans hpa) hb

/-- A record off the free list is given its new key. -/
theorem moves_rekey (hinv : Inv fuel allowed w) {o v : ℕ} {key : List Byte} {flag : ℤ}
    (ho : o ∈ w.ghost.st.offs) (hpl : w.ghost.place o = .proc p)
    (hblank : Blank (w.ghost.st.body o).key) (hkey : KeyOk key)
    (hlen : key.length = (w.ghost.st.body o).key.length) (hv : v ≤ PTR_MAX)
    (hcur : Hist.current w.hist p = some (.keyed (.store key
      (w.ghost.st.dat (w.ghost.st.body o).datoff) flag)))
    (hfiles : s.files = (w.ghost.st.setRec o v ((w.ghost.st.body o).rekey key)).files)
    (hlocks : s.locks = w.shared.locks) (hq : Quiet c) :
    (outline fuel allowed).Moves p w (w.after (.sys p op c) s
      { w.ghost with st := w.ghost.st.setRec o v ((w.ghost.st.body o).rekey key) }) := by
  have hL := hinv.lists
  have hso : w.ghost.del.Spares o := hinv.locks.spares fun i hi => by
    rw [hpl] at hi
    cases hi
  have how : Owns (w.ghost.held p) p (w.ghost.place o) := by
    rw [hpl]
    exact rfl
  have hc : Change p w.ghost
      { w.ghost with st := w.ghost.st.setRec o v ((w.ghost.st.body o).rekey key) } :=
    Change.setRec how (Body.length_text_rekey _ hlen) (fun _ => hblank) (fun _ => Or.inl rfl)
      (fun _ _ => rfl) (fun _ => ⟨rfl, rfl⟩)
  have hlists : Lists w.ghost.st.offs
      (Function.update w.ghost.st.body o ((w.ghost.st.body o).rekey key)) w.ghost.place
      w.ghost.chain w.ghost.free
      (w.ghost.del.links (Function.update w.ghost.st.ptr o v)) := by
    have := hL.rewrite (p := p) (v := v) (b := (w.ghost.st.body o).rekey key)
      (hinv.records.ok.not_head ho) ho (fun _ _ => Iff.rfl) (fun _ => hpl)
    rwa [← hpl, Function.update_eq_self, ← Deletion.links_update hso] at this
  refine hc.moves hinv hfiles hlocks (hinv.records.rekey ho hv hkey.plain hlen) hlists
    hinv.locks.deleting ?_ op hq
  have hbody : ∀ a, a ≠ o → (w.ghost.st.setRec o v ((w.ghost.st.body o).rekey key)).body a =
      w.ghost.st.body a := fun a hao => Function.update_of_ne hao _ _
  refine hc.origins hinv.locks hinv.origins ?_ ?_
  · intro a ha i _ hpa hne
    have hao : a ≠ o := by
      rintro rfl
      exact nomatch hpl.symm.trans hpa
    change Begun _ ((w.ghost.st.setRec o v _).body a).key
      (w.ghost.st.dat ((w.ghost.st.setRec o v _).body a).datoff)
    rw [hbody a hao]
    exact hinv.origins.begun a ha i hpa hne
  · intro a ha hpa hb
    change Making _ p a ((w.ghost.st.setRec o v _).body a).key
      (w.ghost.st.dat ((w.ghost.st.setRec o v _).body a).datoff)
    by_cases hao : a = o
    · subst hao
      refine Or.inl ⟨flag, ?_⟩
      change _ = some (Op.keyed (.store (Function.update w.ghost.st.body a _ a).key
        (w.ghost.st.dat (Function.update w.ghost.st.body a _ a).datoff) flag))
      rw [Function.update_self]
      exact hcur
    · change ¬ Blank ((w.ghost.st.setRec o v _).body a).key at hb
      rw [hbody a hao] at hb ⊢
      exact hinv.origins.making a ha p hpa hb

/-- db_store appends data. -/
theorem moves_addDat (hinv : Inv fuel allowed w) {data : List Byte}
    (hend : w.ghost.held p .datEnd = some .wrlck) (hdata : ∀ c ∈ data, c ≠ 0)
    (hfiles : s.files = (w.ghost.st.addDat data).files)
    (hlocks : s.locks = w.shared.locks) (hq : Quiet c) :
    (outline fuel allowed).Moves p w (w.after (.sys p op c) s
      { w.ghost with
        st := w.ghost.st.addDat data
        maker := Function.update w.ghost.maker w.ghost.st.datFile.length (some p) }) := by
  have hc := Change.addDat hinv.records hend data
  refine hc.moves hinv hfiles hlocks (hinv.records.addDat hdata) hinv.lists
    hinv.locks.deleting ?_ op hq
  have hdat : ∀ a ∈ w.ghost.st.offs, (w.ghost.st.addDat data).dat (w.ghost.st.body a).datoff =
      w.ghost.st.dat (w.ghost.st.body a).datoff := fun a ha =>
    Function.update_of_ne (hinv.records.ok.ne_new_doff (hinv.records.dat_mem a ha)) _ _
  refine hc.origins hinv.locks hinv.origins ?_ ?_
  · intro a ha i _ hpa hne
    exact hdat a ha ▸ hinv.origins.begun a ha i hpa hne
  · intro a ha hpa hb
    exact hdat a ha ▸ hinv.origins.making a ha p hpa hb

/-- db_store appends an index record for the data that it has appended. -/
theorem moves_addRec (hinv : Inv fuel allowed w) {v : ℕ} {b : Body} {flag : ℤ}
    (hend : w.ghost.held p .idxEnd = some .wrlck) (hv : v ≤ PTR_MAX) (hb : b.Ok)
    (hd : b.datoff ∈ w.ghost.st.doffs) (hmaker : w.ghost.maker b.datoff = some p)
    (hlen : b.datlen = (w.ghost.st.dat b.datoff).length + 1)
    (hcur : Hist.current w.hist p =
      some (.keyed (.store b.key (w.ghost.st.dat b.datoff) flag)))
    (hfiles : s.files = (w.ghost.st.addRec v b).files)
    (hlocks : s.locks = w.shared.locks) (hq : Quiet c) :
    (outline fuel allowed).Moves p w (w.after (.sys p op c) s
      { w.ghost with
        st := w.ghost.st.addRec v b
        place := Function.update w.ghost.place w.ghost.st.idxFile.length (.proc p)
        maker := Function.update w.ghost.maker b.datoff none }) := by
  have hL := hinv.lists
  have hok := hinv.records.ok
  have hc := Change.addRec hinv.records hend v hmaker
  have hno : w.ghost.st.idxFile.length ∉ heads := fun hh => by
    have h₁ := head_lt hh
    have h₂ := hok.new_off_ge
    omega
  have hspare : w.ghost.del.Spares w.ghost.st.idxFile.length := hinv.locks.spares fun i hi =>
    absurd (hL.isCell _ i hi) (not_or.mpr ⟨hno, hok.new_off⟩)
  have hlists : Lists (w.ghost.st.offs ++ [w.ghost.st.idxFile.length])
      (Function.update w.ghost.st.body w.ghost.st.idxFile.length b)
      (Function.update w.ghost.place w.ghost.st.idxFile.length (.proc p))
      w.ghost.chain w.ghost.free
      (w.ghost.del.links (Function.update w.ghost.st.ptr w.ghost.st.idxFile.length v)) := by
    rw [Deletion.links_update hspare]
    refine hL.rewrite hno (List.mem_append_right _ List.mem_cons_self) (fun a ha => ?_)
      (fun hmem => absurd hmem hok.new_off)
    rw [List.mem_append, List.mem_singleton]
    exact or_iff_left ha
  refine hc.moves hinv hfiles hlocks (hinv.records.addRec hv hb hd hmaker hlen) hlists
    (hinv.locks.deleting.update (fun i hi => ?_) _) ?_ op hq
  · exact absurd (hL.isCell _ i hi) (not_or.mpr ⟨hno, hok.new_off⟩)
  · have hold : ∀ {a}, a ∈ w.ghost.st.offs → (w.ghost.st.addRec v b).body a = w.ghost.st.body a :=
      fun ha => Function.update_of_ne (hok.ne_new_off ha) _ _
    have hnew : (w.ghost.st.addRec v b).body w.ghost.st.idxFile.length = b :=
      Function.update_self _ _ _
    refine hc.origins hinv.locks hinv.origins ?_ ?_
    · intro a ha i _ hpa hne
      change Function.update w.ghost.place _ (.proc p) a = _ at hpa
      obtain ⟨hao, hpa'⟩ := of_update_place hpa (nofun)
      have ha' := (List.mem_append.mp ha).resolve_right fun hm => hao (List.mem_singleton.mp hm)
      change Begun _ ((w.ghost.st.addRec v b).body a).key
        (w.ghost.st.dat ((w.ghost.st.addRec v b).body a).datoff)
      rw [hold ha']
      exact hinv.origins.begun a ha' i hpa' hne
    · intro a ha hpa hbl
      change ¬ Blank ((w.ghost.st.addRec v b).body a).key at hbl
      change Making _ p a ((w.ghost.st.addRec v b).body a).key
        (w.ghost.st.dat ((w.ghost.st.addRec v b).body a).datoff)
      rcases List.mem_append.mp ha with ha | ha
      · rw [hold ha] at hbl ⊢
        refine hinv.origins.making a ha p ?_ hbl
        exact (Function.update_of_ne (hok.ne_new_off ha) _ _).symm.trans hpa
      · obtain rfl := List.mem_singleton.mp ha
        rw [hnew]
        exact Or.inl ⟨flag, hcur⟩

end Moves

end Apue.Db
