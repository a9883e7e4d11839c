import Apue.DbDelete

/-!
Storing. _db_findfree takes a record of the right sizes off the free list and
releases the list at once; from then on the record is in the hands of the
process, which writes data and key before it links the record to its chain. A
new record is appended to the two files under their append locks and is in the
hands of the process in the same way.
-/
namespace Apue.Db

open Programs Decimal ByteFiles Pointers Threads

variable {P : Type} [DecidableEq P] {fuel : ℕ} {allowed : P → Op → Prop} {w₀ : DbWorld P}
variable {p : P} {pos : Pos} {o : KeyOp} {m n : Map} {v : ℕ} {held : Held}

/-- A process is about to add its key to the chain, which holds the part `n` of
the map and starts with the pointer `v`. -/
structure Storing (fuel : ℕ) (allowed : P → Op → Prop) (p : P) (o : KeyOp) (m n : Map) (v : ℕ)
    (held : Held) (w : DbWorld P) : Prop where
  inv : Inv fuel allowed w
  working : Working p o m held w
  contents : Contents (hashOf o.key) n w
  missing : Missing o.key w
  head : w.ghost.st.ptr (cell (hashOf o.key)) = v

theorem Storing.held_ne {w : DbWorld P} (hs : Storing fuel allowed p o m n v held w)
    (hheld : held (.chain (hashOf o.key)) ≠ none) :
    w.ghost.held p (.chain (hashOf o.key)) ≠ none := by
  rw [hs.working.held]
  exact hheld

theorem Storing.stable {w w' : DbWorld P} (hs : Storing fuel allowed p o m n v held w)
    (hinv : Inv fuel allowed w') (hr : Rely p w w')
    (hheld : held (.chain (hashOf o.key)) ≠ none) :
    Storing fuel allowed p o m n v held w' where
  inv := hinv
  working := hs.working.stable hr hheld
  contents := hs.contents.stable hs.inv hr (hashOf_lt _) (hs.held_ne hheld)
  missing := hs.missing.stable hs.inv hr (hs.held_ne hheld)
  head := by
    have hh := hashOf_lt o.key
    refine ((hr.cells _ (Or.inl (cell_mem_heads hh)) ?_).2).trans hs.head
    rw [hs.inv.lists.place_cell _ hh]
    exact hs.held_ne hheld

/-- A step of `p` itself that leaves the chain alone. -/
theorem Storing.step {w : DbWorld P} (hs : Storing fuel allowed p o m n v held w) {op : Op}
    {c : Call} {s : Shared P} {g : Ghost P} (held' : Held)
    (hinv : Inv fuel allowed (w.after (.sys p op c) s g)) (hheld : g.held p = held')
    (hexpect : g.expect = w.ghost.expect) (habs : g.abs = w.ghost.abs)
    (hchain : g.chain (hashOf o.key) = w.ghost.chain (hashOf o.key))
    (hsame : w.ghost.st.SameOn g.st (w.ghost.chain (hashOf o.key)))
    (hhead : g.st.ptr (cell (hashOf o.key)) = w.ghost.st.ptr (cell (hashOf o.key))) :
    Storing fuel allowed p o m n v held' (w.after (.sys p op c) s g) where
  inv := hinv
  working := hs.working.step hheld hexpect habs
  contents key hk := by
    change g.st.lookup (g.chain _) key = _
    rw [hchain, hsame.lookup]
    exact hs.contents key hk
  missing a ha := by
    change a ∈ g.chain _ at ha
    rw [hchain] at ha
    change (g.st.body a).key ≠ _
    rw [(hsame a ha).1]
    exact hs.missing a ha
  head := hhead.trans hs.head

omit [DecidableEq P] in
theorem Store.SameOn.refl (st : Store) (l : List ℕ) : st.SameOn st l := fun _ _ => ⟨rfl, rfl⟩

/-- Process `p` has the record `a` in its hands and nothing else. -/
structure OwnRecord (p : P) (a v : ℕ) (b : Body) (w : DbWorld P) : Prop where
  record : HasRecord a (.proc p) v b w
  owned : ∀ i ∈ w.ghost.st.offs, w.ghost.place i = .proc p → i = a
  not_made : ∀ d ∈ w.ghost.st.doffs, w.ghost.maker d ≠ some p

omit [DecidableEq P] in
theorem OwnRecord.stable {w w' : DbWorld P} {a u : ℕ} {b : Body} (ho : OwnRecord p a u b w)
    (hr : Rely p w w') : OwnRecord p a u b w' where
  record := ho.record.stable hr rfl
  owned i hi hp := ho.owned i (hr.owned i hi hp).1 (hr.owned i hi hp).2
  not_made d hd hm := ho.not_made d ((hr.made d).mp ⟨hd, hm⟩).1 ((hr.made d).mp ⟨hd, hm⟩).2

omit [DecidableEq P] in
/-- The data of a record in the hands of `p`. -/
theorem OwnRecord.dat_stable {w w' : DbWorld P} {a u : ℕ} {b : Body} (ho : OwnRecord p a u b w)
    (hr : Rely p w w') : w'.ghost.st.dat b.datoff = w.ghost.st.dat b.datoff := by
  have := (hr.recs a ho.record.mem (by rw [ho.record.place]; exact rfl)).2
  rwa [ho.record.body] at this

/-- A record on a chain is not one in the hands of a process. -/
theorem OwnRecord.not_mem_chain {w : DbWorld P} {a u : ℕ} {b : Body} (ho : OwnRecord p a u b w)
    (hinv : Inv fuel allowed w) {h : ℕ} (hh : h < NHASH_DEF) : a ∉ w.ghost.chain h :=
  hinv.lists.not_mem_chain hh fun _ => by
    rw [ho.record.place]
    nofun

/-- The data record `d` was appended by `p`, which has nothing else in its hands. -/
structure MadeData (p : P) (d : ℕ) (data : List Byte) (w : DbWorld P) : Prop where
  mem : d ∈ w.ghost.st.doffs
  maker : w.ghost.maker d = some p
  dat : w.ghost.st.dat d = data
  only : ∀ i ∈ w.ghost.st.doffs, w.ghost.maker i = some p → i = d
  not_owned : ∀ i ∈ w.ghost.st.offs, w.ghost.place i ≠ .proc p

omit [DecidableEq P] in
theorem MadeData.stable {w w' : DbWorld P} {d : ℕ} {data : List Byte} (hm : MadeData p d data w)
    (hr : Rely p w w') : MadeData p d data w' where
  mem := ((hr.made d).mpr ⟨hm.mem, hm.maker⟩).1
  maker := ((hr.made d).mpr ⟨hm.mem, hm.maker⟩).2
  dat := (hr.made_dat d hm.mem hm.maker).trans hm.dat
  only i hi hp := hm.only i ((hr.made i).mp ⟨hi, hp⟩).1 ((hr.made i).mp ⟨hi, hp⟩).2
  not_owned i hi hp := hm.not_owned i (hr.owned i hi hp).1 (hr.owned i hi hp).2

/-- A step that only locks or unlocks. -/
structure LocksOnly (w w' : DbWorld P) : Prop where
  st : w'.ghost.st = w.ghost.st
  place : w'.ghost.place = w.ghost.place
  maker : w'.ghost.maker = w.ghost.maker

section LocksOnly

variable {w w' : DbWorld P} (hl : LocksOnly w w')
include hl

omit [DecidableEq P] in
theorem EmptyHands.locksOnly (hh : EmptyHands p w) : EmptyHands p w' := by
  constructor
  · rw [hl.st, hl.place]
    exact hh.not_owned
  · rw [hl.st, hl.maker]
    exact hh.not_made

omit [DecidableEq P] in
theorem OwnRecord.locksOnly {a u : ℕ} {b : Body} (ho : OwnRecord p a u b w) :
    OwnRecord p a u b w' := by
  obtain ⟨⟨hmem, hplace, hptr, hbody⟩, howned, hnot⟩ := ho
  refine ⟨⟨?_, ?_, ?_, ?_⟩, ?_, ?_⟩
  · rwa [hl.st]
  · rwa [hl.place]
  · rwa [hl.st]
  · rwa [hl.st]
  · rwa [hl.st, hl.place]
  · rwa [hl.st, hl.maker]

omit [DecidableEq P] in
theorem MadeData.locksOnly {d : ℕ} {data : List Byte} (hm : MadeData p d data w) :
    MadeData p d data w' := by
  obtain ⟨hmem, hmaker, hdat, honly, hnot⟩ := hm
  refine ⟨?_, ?_, ?_, ?_, ?_⟩
  · rwa [hl.st]
  · rwa [hl.maker]
  · rwa [hl.st]
  · rwa [hl.st, hl.maker]
  · rwa [hl.st, hl.place]

end LocksOnly

section FreeList

variable {w : DbWorld P}

/-- The search of the locked free list. -/
theorem readWp_findfree (hfuel : PTR_MAX < fuel) (hinv : Inv fuel allowed w)
    (hheld : w.ghost.held p .free ≠ none) {db : DB} {keylen datlen : ℕ}
    {post : DB × ℤ × ℤ → Pos → Prop}
    (hfound : ∀ pre a rest db' pos', w.ghost.free = pre ++ a :: rest →
      (w.ghost.st.body a).key.length = keylen → (w.ghost.st.body a).datlen = datlen →
      db.SameChain db' → db'.Located a (w.ghost.st.ptr a) (w.ghost.st.body a) →
      post (db', a, lastCell FREE_OFF pre) pos')
    (hmissing : ∀ db' save pos', db.SameChain db' → post (db', 0, save) pos') :
    ReadWp (Known fuel allowed p w)
      (do
        let offset ← dbReadptr FREE_OFF
        findfreeLoop fuel db keylen datlen FREE_OFF offset) pos post := by
  have hsee : ∀ x, w.ghost.place x = .free → Sees (w.ghost.held p) p (w.ghost.place x) :=
    fun x hx => by
      rw [hx]
      exact hheld
  have hmem : ∀ a ∈ w.ghost.free, a ∈ w.ghost.st.offs :=
    fun a ha => ((hinv.lists.mem_free a).mp ha).1
  have hlen := hinv.records.ok.length_linked_le hinv.linked_free hinv.lists.nodup_free hmem
  refine ReadWp.bind (readWp_readptr (a := FREE_OFF) (hinv.records.ok.ptr_le _)
    (known_ptr (Or.inl free_mem_heads) (hsee _ hinv.lists.place_free)) fun pos' => ?_)
  refine readWp_findfreeLoop w.ghost.st.body (c := FREE_OFF) keylen datlen (by omega)
    hinv.linked_free (fun a ha => ?_) ?_ ?_
  · exact known_rec hinv (hmem a ha) (hsee a ((hinv.lists.mem_free a).mp ha).2)
  · exact hfound
  · exact fun db' save pos'' _ hsame => hmissing db' save pos'' hsame

end FreeList

/-- The free list is unlocked and the search of it is over. -/
theorem wp_findfreeEnd {db : DB} {rc : ℤ} {msg : String}
    (hs : Storing fuel allowed p o m n v (freeLocks (hashOf o.key)) w₀)
    (hidle : w₀.ghost.del = .idle) {post : DB × ℤ → Pos → DbWorld P → Prop}
    (h : ∀ w w', Rely p w₀ w → LocksOnly w w' →
      Storing fuel allowed p o m n v (chainLocks (hashOf o.key) .wrlck) w' →
      post (db, rc) pos w') :
    (outline fuel allowed).Wp p (.keyed o) (do
      let r ← unLock .idx FREE_OFF 1
      errDumpIf (r < 0) msg
      return (db, rc)) pos w₀ post := by
  have hfne : freeLocks (hashOf o.key) (.chain (hashOf o.key)) ≠ none := by
    rw [freeLocks_chain]
    nofun
  refine (outline fuel allowed).wp_bind (wp_unlockFree (fun _ => hidle) ?_)
  intro w s hinv hr hinv'
  have hs' := hs.stable hinv hr hfne
  refine (outline fuel allowed).wp_bind (wp_check (by decide) (h w _ hr ⟨rfl, rfl, rfl⟩ ?_))
  refine hs'.step _ hinv' ?_ rfl rfl rfl (Store.SameOn.refl _ _) rfl
  refine (setHeld_self _ _ _).trans ?_
  rw [hs'.working.held]
  exact withLock_release _ rfl

/-- A record is taken off the locked free list. -/
theorem wp_takeFree {pre rest : List ℕ} {a u : ℕ} {b : Body} {c ptr : ℤ}
    (hs : Storing fuel allowed p o m n v (freeLocks (hashOf o.key)) w₀) (hhands : EmptyHands p w₀)
    (hidle : w₀.ghost.del = .idle) (hfree : w₀.ghost.free = pre ++ a :: rest)
    (hu : w₀.ghost.st.ptr a = u) (hb : w₀.ghost.st.body a = b) (hc : c = lastCell FREE_OFF pre)
    (hptr : ptr = u) {post : Unit → Pos → DbWorld P → Prop}
    (h : ∀ pos' w, Storing fuel allowed p o m n v (freeLocks (hashOf o.key)) w →
      w.ghost.del = .idle → OwnRecord p a u b w → Blank b.key → post () pos' w) :
    (outline fuel allowed).Wp p (.keyed o) (dbWriteptr c ptr) pos w₀ post := by
  subst hc hptr
  have hh := hashOf_lt o.key
  have hfne : freeLocks (hashOf o.key) (.chain (hashOf o.key)) ≠ none := by
    rw [freeLocks_chain]
    nofun
  refine wp_writeptr (c := lastCell FREE_OFF pre) (hu ▸ hs.inv.records.ok.ptr_le a)
    (hs.inv.lists.lastCell_free hfree).1 fun w s hinv hr hfiles hlocks => ?_
  have hs' := hs.stable hinv hr hfne
  have hwr₀ : w₀.ghost.held p .free = some .wrlck := by
    rw [hs.working.held]
    exact freeLocks_free _
  have hwr : w.ghost.held p .free = some .wrlck := hr.held ▸ hwr₀
  have hkeep := hr.free (by rw [hwr₀]; nofun)
  have hlist := hkeep.1.trans hfree
  have ha : a ∈ w₀.ghost.st.offs ∧ w₀.ghost.place a = .free := (hs.inv.lists.mem_free a).mp (by
    rw [hfree]
    exact List.mem_append_right _ List.mem_cons_self)
  have hrec : HasRecord a .free u b w := HasRecord.stable ⟨ha.1, ha.2, hu, hb⟩ hr (by
    change w₀.ghost.held p .free ≠ none
    rw [hwr₀]
    nofun)
  rw [← hrec.ptr] at hfiles
  have hmoves := moves_popFree (.keyed o) hinv hwr (hkeep.2.trans hidle) hlist hfiles hlocks
    (c := .write .idx (ptrText u)) trivial
  have hlast := hinv.lists.lastCell_free hlist
  refine ⟨_, hmoves, fun pos' => h pos' _ ?_ (hkeep.2.trans hidle) ⟨⟨hrec.mem, ?_, ?_, hrec.body⟩,
    ?_, (hhands.stable hr).not_made⟩ ?_⟩
  · refine hs'.step _ hmoves.1 hs'.working.held rfl rfl rfl (fun _ _ => ⟨rfl, rfl⟩) ?_
    refine Function.update_of_ne (fun he => ?_) _ _
    have hplace := hinv.lists.place_cell _ hh
    rw [he, hlast.2] at hplace
    cases hplace
  · exact Function.update_self _ _ _
  · have hnodup := hinv.lists.nodup_free
    rw [hlist] at hnodup
    have hnot := (List.nodup_cons.mp (List.nodup_middle.mp hnodup)).1
    refine (Function.update_of_ne (fun he : a = _ => ?_) _ _).trans hrec.ptr
    rcases List.mem_cons.mp (he ▸ lastCell_mem FREE_OFF pre) with hcon | hcon
    · exact hinv.records.ok.ne_free hrec.mem hcon.symm
    · exact hnot (List.mem_append_left _ hcon)
  · intro i hi hp
    by_contra hia
    exact (hhands.stable hr).not_owned i hi ((Function.update_of_ne hia _ _).symm.trans hp)
  · rw [← hrec.body]
    exact hinv.lists.key_blank a hrec.mem hrec.place

/-- _db_findfree. -/
theorem wp_findfree (hfuel : PTR_MAX < fuel) {db : DB} {keylen datlen : ℕ}
    (hs : Storing fuel allowed p o m n v (chainLocks (hashOf o.key) .wrlck) w₀)
    (hhands : EmptyHands p w₀) {post : DB × ℤ → Pos → DbWorld P → Prop}
    (hnone : ∀ db' pos' w, db.SameChain db' →
      Storing fuel allowed p o m n v (chainLocks (hashOf o.key) .wrlck) w → EmptyHands p w →
      post (db', -1) pos' w)
    (hsome : ∀ db' a u b pos' w, db.SameChain db' →
      Storing fuel allowed p o m n v (chainLocks (hashOf o.key) .wrlck) w →
      OwnRecord p a u b w → Blank b.key → b.key.length = keylen → b.datlen = datlen →
      db'.idxoff = a → db'.datoff = b.datoff → post (db', 0) pos' w) :
    (outline fuel allowed).Wp p (.keyed o) (dbFindfree fuel db keylen datlen) pos w₀ post := by
  have hne := chainLocks_ne_none (hashOf o.key) .wrlck
  have hfne : freeLocks (hashOf o.key) (.chain (hashOf o.key)) ≠ none := by
    rw [freeLocks_chain]
    nofun
  unfold dbFindfree
  refine (outline fuel allowed).wp_bind (wp_lockFree ?_ ?_)
  · rw [hs.working.held]
    exact chainLocks_other rfl _ _
  intro w₁ s₁ hinv₁ hr₁ hidle hinv₁'
  have hs₁ := (hs.stable hinv₁ hr₁ hne).step (freeLocks (hashOf o.key)) hinv₁'
    (by
      refine (setHeld_self _ _ _).trans ?_
      rw [hr₁.held, hs.working.held]
      rfl) rfl rfl rfl (Store.SameOn.refl _ _) rfl
  have hhands₁ : EmptyHands p (w₁.after (.sys p (.keyed o) (.setlkw .idx .wrlck FREE_OFF 1)) s₁
      { w₁.ghost with held := setHeld w₁.ghost.held p .free (some .wrlck) }) :=
    ⟨(hhands.stable hr₁).not_owned, (hhands.stable hr₁).not_made⟩
  replace hidle : (w₁.after (.sys p (.keyed o) (.setlkw .idx .wrlck FREE_OFF 1)) s₁
      { w₁.ghost with held := setHeld w₁.ghost.held p .free (some .wrlck) }).ghost.del = .idle :=
    hidle
  generalize w₁.after (.sys p (.keyed o) (.setlkw .idx .wrlck FREE_OFF 1)) s₁
    { w₁.ghost with held := setHeld w₁.ghost.held p .free (some .wrlck) } = w₂
    at hs₁ hhands₁ hidle
  have hheld : w₂.ghost.held p .free ≠ none := by
    rw [hs₁.working.held, freeLocks_free]
    nofun
  refine (outline fuel allowed).wp_bind (wp_check (by decide) ?_)
  rw [← Prog.bind_assoc]
  refine (outline fuel allowed).wp_bind (wp_reads (fun r _ => db.SameChain r.1 ∧
    (r.2.1 = 0 ∨ ∃ pre a rest, w₂.ghost.free = pre ++ a :: rest ∧
      (w₂.ghost.st.body a).key.length = keylen ∧ (w₂.ghost.st.body a).datlen = datlen ∧
      r.1.Located a (w₂.ghost.st.ptr a) (w₂.ghost.st.body a) ∧
      r.2 = ((a : ℤ), (lastCell FREE_OFF pre : ℤ)))) hs₁.inv
    (readWp_findfree hfuel hs₁.inv hheld ?_ ?_) ?_)
  · intro pre a rest db' pos' hfree hkey hdat hsame hloc
    exact ⟨hsame, Or.inr ⟨pre, a, rest, hfree, hkey, hdat, hloc, rfl⟩⟩
  · intro db' save pos' hsame
    exact ⟨hsame, Or.inl rfl⟩
  rintro ⟨db₃, off, save⟩ pos₃ w₃ hinv₃ hr₃ ⟨hsame, hres⟩
  have hs₃ := hs₁.stable hinv₃ hr₃ hfne
  have hhands₃ := hhands₁.stable hr₃
  have hfree₃ := hr₃.free hheld
  rcases hres with rfl | ⟨pre, a, rest, hfree, hkey, hdat, hloc, heq⟩
  · simp only
    rw [if_pos trivial]
    refine wp_findfreeEnd hs₃ (hfree₃.2.trans hidle) fun w w' hr hl hs' => ?_
    exact hnone _ _ _ hsame hs' ((hhands₃.stable hr).locksOnly hl)
  · obtain ⟨rfl, rfl⟩ := Prod.mk.inj heq
    have ha := (hs₁.inv.lists.mem_free a).mp (by
      rw [hfree]
      exact List.mem_append_right _ List.mem_cons_self)
    have hsee : Sees (w₂.ghost.held p) p (w₂.ghost.place a) := by
      rw [ha.2]
      exact hheld
    have hane : (a : ℤ) ≠ 0 := by
      have := (hs₁.inv.records.ok.off_bounds ha.1).1
      omega
    simp only
    rw [if_neg hane]
    refine (outline fuel allowed).wp_bind ((outline fuel allowed).wp_bind (wp_takeFree hs₃ hhands₃
      (hfree₃.2.trans hidle) (hfree₃.1.trans hfree) (hr₃.cells a (Or.inr ha.1) hsee).2
      (hr₃.recs a ha.1 hsee).1 rfl hloc.ptrval ?_))
    intro pos₄ w₄ hs₄ hidle₄ hown hblank
    refine wp_findfreeEnd hs₄ hidle₄ fun w w' hr hl hs' => ?_
    exact hsome _ a (w₂.ghost.st.ptr a) (w₂.ghost.st.body a) _ _ hsame hs'
      ((hown.stable hr).locksOnly hl) hblank hkey hdat hloc.idxoff hloc.datoff

section Appending

variable {r : Region} {msg : String} {post : Unit → Pos → DbWorld P → Prop}

/-- The lock of a region that grows. -/
theorem wp_appendLock (hr : r = .idxEnd ∨ r = .datEnd) {fd : Fd} {start : ℕ} (hfd : r.fd = fd)
    (hstart : r.start = start)
    (hs : Storing fuel allowed p o m n v (chainLocks (hashOf o.key) .wrlck) w₀)
    (h : ∀ w w', Rely p w₀ w → LocksOnly w w' →
      Storing fuel allowed p o m n v (withLock (hashOf o.key) r) w' → post () pos w') :
    (outline fuel allowed).Wp p (.keyed o) (appendLock .seekEnd fd start msg) pos w₀ post := by
  subst hfd hstart
  have hvalid : r.Valid ∧ r.rank = 1 ∧ r.len = 0 := by
    rcases hr with rfl | rfl <;> exact ⟨trivial, rfl, rfl⟩
  rw [appendLock, if_pos rfl]
  refine (outline fuel allowed).wp_bind (wp_setlkw fun w s hinv hr hgranted hfiles hlocks => ?_)
  have hs' := hs.stable hinv hr (chainLocks_ne_none _ _)
  rw [← hvalid.2.2] at hgranted hlocks
  have hmoves := moves_lockOther (.keyed o) hinv hvalid.1 hvalid.2.1 hfiles hlocks hgranted
    (by
      rw [hs'.working.held]
      exact chainLocks_other hvalid.2.1 _ _)
  rw [hvalid.2.2] at hmoves
  refine ⟨_, hmoves, wp_check (by decide) (h w _ hr ⟨rfl, rfl, rfl⟩ ?_)⟩
  refine hs'.step _ hmoves.1 ?_ rfl rfl rfl (Store.SameOn.refl _ _) rfl
  refine (setHeld_self _ _ _).trans ?_
  rw [hs'.working.held]
  rfl

theorem wp_appendUnlock (hr : r = .idxEnd ∨ r = .datEnd) {fd : Fd} {start : ℕ} (hfd : r.fd = fd)
    (hstart : r.start = start)
    (hs : Storing fuel allowed p o m n v (withLock (hashOf o.key) r) w₀)
    (h : ∀ w w', Rely p w₀ w → LocksOnly w w' →
      Storing fuel allowed p o m n v (chainLocks (hashOf o.key) .wrlck) w' → post () pos w') :
    (outline fuel allowed).Wp p (.keyed o) (appendUnlock .seekEnd fd start msg) pos w₀ post := by
  subst hfd hstart
  have hvalid : r.Valid ∧ r.rank = 1 ∧ r.len = 0 ∧ Region.free ≠ r := by
    rcases hr with rfl | rfl <;> exact ⟨trivial, rfl, rfl, by simp⟩
  have hne : withLock (hashOf o.key) r (.chain (hashOf o.key)) ≠ none := by
    rw [withLock_chain _ hvalid.2.1]
    nofun
  rw [appendUnlock, if_pos rfl]
  refine (outline fuel allowed).wp_bind (wp_unlck fun w s hinv hr hfiles hlocks => ?_)
  have hs' := hs.stable hinv hr hne
  rw [← hvalid.2.2.1] at hlocks
  have hmoves := moves_unlockOther (.keyed o) hinv hvalid.1 hvalid.2.1 hfiles hlocks
    fun hf => by
      rw [hs'.working.held, withLock, Function.update_of_ne hvalid.2.2.2,
        chainLocks_other rfl] at hf
      cases hf
  rw [hvalid.2.2.1] at hmoves
  refine ⟨_, hmoves, wp_check (by decide) (h w _ hr ⟨rfl, rfl, rfl⟩ ?_)⟩
  refine hs'.step _ hmoves.1 ?_ rfl rfl rfl (Store.SameOn.refl _ _) rfl
  refine (setHeld_self _ _ _).trans ?_
  rw [hs'.working.held]
  exact withLock_release _ hvalid.2.1

end Appending

section Ends

variable {w w' : DbWorld P}

omit [DecidableEq P] in
/-- The data file does not grow while its end is locked. -/
theorem datEnd_stable (hr : Rely p w w') (hheld : w.ghost.held p .datEnd ≠ none) :
    w'.ghost.st.datFile.length = w.ghost.st.datFile.length := by
  rw [Store.Ok.length_datFile, Store.Ok.length_datFile, hr.doffs_eq hheld]
  refine endOf_congr fun d hd => ?_
  simp only [Store.datBlock, List.length_append, hr.dat_size d hd]

/-- The index file does not grow while its end is locked. -/
theorem idxEnd_stable (hinv : Inv fuel allowed w) (hinv' : Inv fuel allowed w')
    (hr : Rely p w w') (hheld : w.ghost.held p .idxEnd ≠ none) :
    w'.ghost.st.idxFile.length = w.ghost.st.idxFile.length := by
  rw [hinv'.records.ok.length_idxFile, hinv.records.ok.length_idxFile, hr.offs_eq hheld]
  refine endOf_congr fun a ha => ?_
  rw [hinv'.records.ok.length_recBlock (hr.offs.subset ha), hinv.records.ok.length_recBlock ha,
    (hr.fixed a ha).1]

end Ends

/-- _db_writedat at the end of the data file. -/
theorem wp_writedatEnd {db : DB} {data : List Byte} (hdata : ∀ c ∈ data, c ≠ 0)
    (hs : Storing fuel allowed p o m n v (chainLocks (hashOf o.key) .wrlck) w₀)
    (hhands : EmptyHands p w₀) {post : DB → Pos → DbWorld P → Prop}
    (h : ∀ d pos' w, Storing fuel allowed p o m n v (chainLocks (hashOf o.key) .wrlck) w →
      MadeData p d data w → post { db with datoff := d, datlen := data.length + 1 } pos' w) :
    (outline fuel allowed).Wp p (.keyed o) (dbWritedat db data 0 .seekEnd) pos w₀ post := by
  have hlne : withLock (hashOf o.key) .datEnd (.chain (hashOf o.key)) ≠ none := by
    rw [withLock_chain _ rfl]
    nofun
  unfold dbWritedat
  refine (outline fuel allowed).wp_bind (wp_appendLock (Or.inr rfl) rfl rfl hs ?_)
  intro w₁ w₂ hr₁ hl₂ hs₂
  have hhands₂ := (hhands.stable hr₁).locksOnly hl₂
  refine (outline fuel allowed).wp_bind (wp_seekEnd fun w₃ hinv₃ hr₃ => ?_)
  have hs₃ := hs₂.stable hinv₃ hr₃ hlne
  have hend : w₃.ghost.held p .datEnd = some .wrlck := by
    rw [hs₃.working.held]
    exact withLock_self _ _
  have hlen : (w₃.shared.files.get .dat).length = w₃.ghost.st.datFile.length := by
    rw [hinv₃.files]
    rfl
  refine (outline fuel allowed).wp_bind (wp_check (by omega) ?_)
  simp only [hlen]
  refine (outline fuel allowed).wp_bind (wp_write _ fun w₄ s₄ hinv₄ hr₄ hfiles hlocks => ?_)
  have hs₄ := hs₃.stable hinv₄ hr₄ hlne
  have hhands₄ := (hhands₂.stable hr₃).stable hr₄
  have hlen₄ := datEnd_stable hr₄ (by rw [hend]; nofun)
  have hfiles' : s₄.files = (w₄.ghost.st.addDat data).files := by
    rw [hfiles, hinv₄.files]
    change Files.mk _ (writeAt w₄.ghost.st.datFile w₃.ghost.st.datFile.length _) = _
    rw [← hlen₄, hinv₄.records.ok.write_addDat]
    rfl
  have hmoves := moves_addDat (.keyed o) hinv₄ (hr₄.held ▸ hend) hdata hfiles' hlocks
    (c := .write .dat (data ++ [NEWLINE])) trivial
  refine ⟨_, hmoves, (outline fuel allowed).wp_bind (wp_check (by simp) ?_)⟩
  have hs₅ := hs₄.step (withLock (hashOf o.key) .datEnd) hmoves.1 hs₄.working.held rfl rfl
    rfl (fun a ha => ⟨rfl, Function.update_of_ne (hinv₄.records.ok.ne_new_doff
      (hinv₄.records.dat_mem a ((hinv₄.lists.mem_chain _ (hashOf_lt _) a).mp ha).1)) _ _⟩) rfl
  have hmade : MadeData p w₃.ghost.st.datFile.length data (w₄.after
      (.sys p (.keyed o) (.write .dat (data ++ [NEWLINE]))) s₄ { w₄.ghost with
        st := w₄.ghost.st.addDat data
        maker := Function.update w₄.ghost.maker w₄.ghost.st.datFile.length (some p) }) := by
    rw [← hlen₄]
    refine ⟨List.mem_append_right _ List.mem_cons_self, Function.update_self _ _ _,
      Function.update_self _ _ _, fun i hi hm => ?_, hhands₄.not_owned⟩
    by_contra hne
    have hi' := (List.mem_append.mp hi).resolve_right fun hc => hne (List.mem_singleton.mp hc)
    exact hhands₄.not_made i hi' ((Function.update_of_ne hne _ _).symm.trans hm)
  refine (outline fuel allowed).wp_bind (wp_appendUnlock (Or.inr rfl) rfl rfl hs₅ ?_)
  intro w₅ w₆ hr₅ hl₆ hs₆
  exact h _ _ _ hs₆ ((hmade.stable hr₅).locksOnly hl₆)

/-- _db_writeidx at the end of the index file. A record that is too long stops
the process. -/
theorem wp_writeidxEnd {db : DB} {key data : List Byte} {flag : ℤ} {d : ℕ} {ptr : ℤ}
    (ho : o = .store key data flag) (hkey : KeyOk key)
    (hdlen : data.length + 1 ≤ DATLEN_MAX) (hptr : ptr = v)
    (hs : Storing fuel allowed p o m n v (chainLocks (hashOf o.key) .wrlck) w₀)
    (hmade : MadeData p d data w₀) (hdb : OnChain o db) (hdatoff : db.datoff = d)
    (hdatlen : db.datlen = data.length + 1) {post : DB → Pos → DbWorld P → Prop}
    (h : ∀ db' (a : ℕ) pos' w, OnChain o db' → db'.idxoff = a →
      Storing fuel allowed p o m n v (chainLocks (hashOf o.key) .wrlck) w →
      OwnRecord p a v ⟨key, d, data.length + 1⟩ w → w.ghost.st.dat d = data → post db' pos' w) :
    (outline fuel allowed).Wp p (.keyed o) (dbWriteidx db key 0 .seekEnd ptr) pos w₀ post := by
  subst hptr
  have hlne : withLock (hashOf o.key) .idxEnd (.chain (hashOf o.key)) ≠ none := by
    rw [withLock_chain _ rfl]
    rintro ⟨⟩
  have hstop : MayStop p w₀ := by
    refine ⟨?_, fun i hi hpl => absurd hpl (hmade.not_owned i hi)⟩
    rw [hs.working.held, chainLocks_other rfl]
    rintro ⟨⟩
  have hv : v ≤ PTR_MAX := hs.head ▸ hs.inv.records.ok.ptr_le _
  generalize hb : (⟨key, d, data.length + 1⟩ : Body) = b
  have htext : idxText key db.datoff db.datlen = b.text := by
    rw [hdatoff, hdatlen, ← hb]
    rfl
  have hrec : padLeft PTR_SZ (decimalInt (v : ℤ)) ++ padLeft IDXLEN_SZ (decimal b.text.length) ++
      b.text = recText v b := by
    rw [decimalInt_natCast]
    rfl
  unfold dbWriteidx dbWriteidxWith
  simp only [htext, hrec, sprintfIdx_unchecked, Prog.ret_bind]
  refine (outline fuel allowed).wp_bind (wp_check (by omega) ?_)
  refine (outline fuel allowed).wp_bind (wp_errDumpIf (fun _ => hstop) fun hlens => ?_)
  have hbok : b.Ok := by
    refine ⟨?_, by omega, by omega, ?_, ?_⟩
    · rw [← hb]
      exact hkey.plain
    · rw [← hb]
      exact Nat.succ_pos _
    · rw [← hb]
      exact hdlen
  have hreclen := length_recText hv hbok.le_max
  refine (outline fuel allowed).wp_bind (wp_appendLock (Or.inl rfl) rfl
    (by rw [hdb.opened.1]; rfl) hs ?_)
  intro w₁ w₂ hr₁ hl₂ hs₂
  have hmade₂ := (hmade.stable hr₁).locksOnly hl₂
  refine (outline fuel allowed).wp_bind (wp_seekEnd fun w₃ hinv₃ hr₃ => ?_)
  have hs₃ := hs₂.stable hinv₃ hr₃ hlne
  have hend : w₃.ghost.held p .idxEnd = some .wrlck := by
    rw [hs₃.working.held]
    exact withLock_self _ _
  have hlen : (w₃.shared.files.get .idx).length = w₃.ghost.st.idxFile.length := by
    rw [hinv₃.files]
    rfl
  refine (outline fuel allowed).wp_bind (wp_check (by omega) ?_)
  simp only [hlen]
  refine (outline fuel allowed).wp_bind (wp_write (recText v b)
    fun w₄ s₄ hinv₄ hr₄ hfiles hlocks => ?_)
  have hs₄ := hs₃.stable hinv₄ hr₄ hlne
  have hmade₄ := (hmade₂.stable hr₃).stable hr₄
  have hlen₄ := idxEnd_stable hinv₃ hinv₄ hr₄ (by rw [hend]; rintro ⟨⟩)
  have hfiles' : s₄.files = (w₄.ghost.st.addRec v b).files := by
    rw [hfiles, hinv₄.files]
    change Files.mk (writeAt w₄.ghost.st.idxFile w₃.ghost.st.idxFile.length _) _ = _
    rw [← hlen₄, hinv₄.records.ok.write_addRec]
    rfl
  have hbd : b.datoff = d ∧ b.key = key ∧ b.datlen = data.length + 1 := by
    subst hb
    exact ⟨rfl, rfl, rfl⟩
  have hcur : Hist.current w₄.hist p =
      some (.keyed (.store b.key (w₄.ghost.st.dat b.datoff) flag)) := by
    rw [hbd.1, hbd.2.1, hmade₄.dat, hs₄.working.current, ho]
  have hmoves := moves_addRec (.keyed o) hinv₄ (hr₄.held ▸ hend) hv hbok
    (hbd.1.symm ▸ hmade₄.mem) (hbd.1.symm ▸ hmade₄.maker) (by rw [hbd.1, hmade₄.dat, hbd.2.2]) hcur
    hfiles' hlocks (c := .write .idx (recText v b)) trivial
  have hnew : w₄.ghost.st.idxFile.length ∉ w₄.ghost.st.offs := hinv₄.records.ok.new_off
  refine ⟨_, hmoves, (outline fuel allowed).wp_bind (wp_check (by rw [hreclen]; push_cast; omega)
    ?_)⟩
  have hs₅ := hs₄.step (withLock (hashOf o.key) .idxEnd) hmoves.1 hs₄.working.held rfl rfl
    rfl (fun a ha => ⟨Function.update_of_ne (hinv₄.records.ok.ne_new_off
      ((hinv₄.lists.mem_chain _ (hashOf_lt _) a).mp ha).1) _ _, rfl⟩)
    (Function.update_of_ne (fun he => by
      have h₁ := head_lt (cell_mem_heads (hashOf_lt o.key))
      have h₂ := hinv₄.records.ok.new_off_ge
      omega) _ _)
  have hown : OwnRecord p w₃.ghost.st.idxFile.length v b (w₄.after
      (.sys p (.keyed o) (.write .idx (recText v b))) s₄ { w₄.ghost with
        st := w₄.ghost.st.addRec v b
        place := Function.update w₄.ghost.place w₄.ghost.st.idxFile.length (.proc p)
        maker := Function.update w₄.ghost.maker b.datoff none }) := by
    rw [← hlen₄]
    refine ⟨⟨List.mem_append_right _ List.mem_cons_self, Function.update_self _ _ _,
      Function.update_self _ _ _, Function.update_self _ _ _⟩, fun i hi hp => ?_,
      fun i hi hm => ?_⟩
    · by_contra hne
      have hi' := (List.mem_append.mp hi).resolve_right fun hc => hne (List.mem_singleton.mp hc)
      exact hmade₄.not_owned i hi' ((Function.update_of_ne hne _ _).symm.trans hp)
    · by_cases hid : i = b.datoff
      · rw [hid] at hm
        cases (Function.update_self _ _ _).symm.trans hm
      · exact hid ((hmade₄.only i hi ((Function.update_of_ne hid _ _).symm.trans hm)).trans
          hbd.1.symm)
  refine (outline fuel allowed).wp_bind (wp_appendUnlock (Or.inl rfl) rfl
    (by rw [hdb.opened.1]; rfl) hs₅ ?_)
  intro w₅ w₆ hr₅ hl₆ hs₆
  refine h _ w₃.ghost.st.idxFile.length _ _ ⟨hdb.opened, hdb.chainoff⟩ rfl hs₆
    (hb ▸ (hown.stable hr₅).locksOnly hl₆) ?_
  have hdat := hown.dat_stable hr₅
  rw [hbd.1] at hdat
  rw [hl₆.st]
  exact hdat.trans hmade₄.dat

/-- The data of the new binding, written into a record in the hands of `p`. -/
theorem wp_writeOwnData {db : DB} {data : List Byte} {a u : ℕ} {b : Body}
    (hdata : ∀ c ∈ data, c ≠ 0)
    (hs : Storing fuel allowed p o m n v (chainLocks (hashOf o.key) .wrlck) w₀)
    (hown : OwnRecord p a u b w₀) (hblank : Blank b.key) (hlen : b.datlen = data.length + 1)
    (hoff : db.datoff = b.datoff) {post : DB → Pos → DbWorld P → Prop}
    (h : ∀ pos' w, Storing fuel allowed p o m n v (chainLocks (hashOf o.key) .wrlck) w →
      OwnRecord p a u b w → w.ghost.st.dat b.datoff = data →
      post { db with datoff := b.datoff, datlen := data.length + 1 } pos' w) :
    (outline fuel allowed).Wp p (.keyed o) (dbWritedat db data db.datoff .seekSet) pos w₀ post := by
  refine wp_writedatSet hoff fun w s hinv hr hfiles hlocks => ?_
  have hs' := hs.stable hinv hr (chainLocks_ne_none _ _)
  have hown' := hown.stable hr
  have hbody := hown'.record.body
  have hdlen := hinv.records.dat_len a hown'.record.mem
  rw [← hbody] at hfiles hblank hlen
  have hfiles' := hfiles.trans (files_setDat hinv (hinv.records.dat_mem a hown'.record.mem)
    (by omega))
  have hmoves := moves_ownData (.keyed o) hinv hown'.record.mem hown'.record.place hblank
    hdata hlen.symm hfiles' hlocks (c := .write .dat (data ++ [NEWLINE])) trivial
  refine ⟨_, hmoves, fun pos' => h pos' _ ?_ ⟨⟨hown'.record.mem, hown'.record.place,
    hown'.record.ptr, hbody⟩, hown'.owned, hown'.not_made⟩ ?_⟩
  · refine hs'.step _ hmoves.1 hs'.working.held rfl rfl rfl (fun i hi => ⟨rfl, ?_⟩) rfl
    refine Function.update_of_ne (fun he => ?_) _ _
    have hi' := ((hinv.lists.mem_chain _ (hashOf_lt _) i).mp hi).1
    have hia := hinv.records.dat_inj i hi' a hown'.record.mem he
    exact hown'.not_mem_chain hinv (hashOf_lt _) (hia ▸ hi)
  · rw [← hbody]
    exact Function.update_self _ _ _

/-- The key of the new binding, written into a record in the hands of `p`. -/
theorem wp_writeOwnIdx {db : DB} {key data : List Byte} {flag ptr : ℤ} {a u : ℕ} {b : Body}
    (ho : o = .store key data flag) (hkey : KeyOk key) (hptr : ptr = v)
    (hs : Storing fuel allowed p o m n v (chainLocks (hashOf o.key) .wrlck) w₀)
    (hown : OwnRecord p a u b w₀) (hblank : Blank b.key) (hklen : b.key.length = key.length)
    (hdat : w₀.ghost.st.dat b.datoff = data) (hdb : OnChain o db) (hidx : db.idxoff = a)
    (hdatoff : db.datoff = b.datoff) (hdatlen : db.datlen = b.datlen)
    {post : DB → Pos → DbWorld P → Prop}
    (h : ∀ db' pos' w, OnChain o db' → db'.idxoff = a →
      Storing fuel allowed p o m n v (chainLocks (hashOf o.key) .wrlck) w →
      OwnRecord p a v (b.rekey key) w → w.ghost.st.dat b.datoff = data → post db' pos' w) :
    (outline fuel allowed).Wp p (.keyed o) (dbWriteidx db key db.idxoff .seekSet ptr) pos w₀
      post := by
  have hv : v ≤ PTR_MAX := hs.head ▸ hs.inv.records.ok.ptr_le _
  have hbok := hs.inv.records.ok.body_ok a hown.record.mem
  rw [hown.record.body] at hbok
  have hrok := hbok.rekey hkey.plain hklen.symm
  refine wp_writeidxSet hidx hptr hv hrok rfl hdatoff hdatlen fun w s hinv hr hfiles hlocks => ?_
  have hs' := hs.stable hinv hr (chainLocks_ne_none _ _)
  have hown' := hown.stable hr
  have hbody := hown'.record.body
  have hdat' : w.ghost.st.dat b.datoff = data := (hown.dat_stable hr).trans hdat
  rw [← hbody] at hfiles hblank hklen hrok
  have hfiles' := hfiles.trans (files_setRec hinv hown'.record.mem hv
    (Body.length_text_rekey _ hklen.symm))
  have hcur : Hist.current w.hist p = some (.keyed (.store key
      (w.ghost.st.dat (w.ghost.st.body a).datoff) flag)) := by
    rw [hbody, hdat', hs'.working.current, ho]
  have hmoves := moves_rekey (.keyed o) hinv hown'.record.mem hown'.record.place hblank hkey
    hklen.symm hv hcur hfiles' hlocks (c := .write .idx (recText v (b.rekey key))) trivial
  have hnot := hown'.not_mem_chain hinv (hashOf_lt o.key)
  refine ⟨_, hmoves, fun pos' => h _ pos' _ ⟨hdb.opened, hdb.chainoff⟩ rfl ?_
    ⟨⟨hown'.record.mem, hown'.record.place, Function.update_self _ _ _, ?_⟩, hown'.owned,
      hown'.not_made⟩ hdat'⟩
  · refine hs'.step _ hmoves.1 hs'.working.held rfl rfl rfl (fun i hi => ⟨?_, rfl⟩) ?_
    · exact Function.update_of_ne (fun he : i = a => hnot (he ▸ hi)) _ _
    · exact Function.update_of_ne (hinv.records.ok.ne_cell hown'.record.mem (hashOf_lt _)) _ _
  · refine (Function.update_self _ _ _).trans ?_
    rw [hbody]

/-- The record in the hands of `p` becomes the head of the chain. Its offset may
be too large for a pointer, which stops the process. -/
theorem wp_link {key data : List Byte} {flag : ℤ} {a : ℕ} {b : Body} {c ptr : ℤ}
    (ho : o = .store key data flag) (hkey : KeyOk key) (hc : c = cell (hashOf o.key))
    (hptr : ptr = a)
    (hs : Storing fuel allowed p o m n v (chainLocks (hashOf o.key) .wrlck) w₀)
    (hown : OwnRecord p a v b w₀) (hbkey : b.key = key) (hdat : w₀.ghost.st.dat b.datoff = data)
    {post : Unit → Pos → DbWorld P → Prop}
    (h : ∀ pos' w, Inv fuel allowed w → Working p o m (chainLocks (hashOf o.key) .wrlck) w →
      Contents (hashOf o.key) (Function.update n key (some data)) w → EmptyHands p w →
      post () pos' w) :
    (outline fuel allowed).Wp p (.keyed o) (dbWriteptr c ptr) pos w₀ post := by
  subst hc hptr
  have hh := hashOf_lt o.key
  have hokey : o.key = key := by
    rw [ho]
    rfl
  have hnofree : w₀.ghost.held p .free ≠ some .wrlck := by
    rw [hs.working.held, chainLocks_other rfl]
    rintro ⟨⟩
  by_cases hle : a ≤ PTR_MAX
  · refine wp_writeptr (c := cell (hashOf o.key)) hle (Or.inl (cell_mem_heads hh))
      fun w s hinv hr hfiles hlocks => ?_
    have hs' := hs.stable hinv hr (chainLocks_ne_none _ _)
    have hown' := hown.stable hr
    have hbody := hown'.record.body
    have hdat' : w.ghost.st.dat b.datoff = data := (hown.dat_stable hr).trans hdat
    have hwr : w.ghost.held p (.chain (hashOf o.key)) = some .wrlck := by
      rw [hs'.working.held, chainLocks, Function.update_self]
    have hbegun : Begun w.hist (w.ghost.st.body a).key
        (w.ghost.st.dat (w.ghost.st.body a).datoff) := by
      rw [hbody, hbkey, hdat']
      exact .of_current (ho ▸ hs'.working.current)
    have hmoves := moves_link (.keyed o) hinv hh hwr (hr.held.symm ▸ hnofree)
      hown'.record.mem hown'.record.place (by rw [hbody, hbkey]; exact hkey)
      (by rw [hbody, hbkey, hokey])
      (by rw [hbody, hbkey, ← hokey]; exact hs'.missing)
      (hown'.record.ptr.trans hs'.head.symm) hle hbegun hfiles hlocks
      (c := .write .idx (ptrText a)) trivial
    refine ⟨_, hmoves, fun pos' => h pos' _ hmoves.1
      (hs'.working.step hs'.working.held rfl rfl) (fun k hk => ?_) ⟨fun i hi hp => ?_, hown'.not_made⟩⟩
    · have hchain : (Function.update w.ghost.chain (hashOf o.key)
          (a :: w.ghost.chain (hashOf o.key))) (hashOf o.key) = a :: w.ghost.chain (hashOf o.key) :=
        Function.update_self _ _ _
      change w.ghost.st.lookup (Function.update w.ghost.chain (hashOf o.key) _ (hashOf o.key)) k = _
      rw [hchain, Store.lookup_cons, hbody, hbkey, hdat', hs'.contents k hk]
      by_cases hkk : key = k
      · rw [if_pos hkk, ← hkk, Function.update_self]
      · rw [if_neg hkk, Function.update_of_ne (Ne.symm hkk)]
    · have hplace : Function.update w.ghost.place a _ i = _ := hp
      obtain ⟨hia, hp'⟩ := of_update_place hplace (by rintro ⟨⟩)
      exact hia (hown'.owned i hi hp')
  · have hstop : MayStop p w₀ :=
      ⟨hnofree, fun i hi hpl _ => hown.owned i hi hpl ▸ Nat.lt_of_not_le hle⟩
    unfold dbWriteptr
    exact (outline fuel allowed).wp_bind (wp_errDumpIf (fun _ => hstop) fun hcon => by omega)

/-- A record of a chain gets new data. -/
theorem Inv.lookup_setDat {w : DbWorld P} (hinv : Inv fuel allowed w) {h a : ℕ}
    (hh : h < NHASH_DEF) (ha : a ∈ w.ghost.st.offs) (hpl : w.ghost.place a = .chain h)
    (data key : List Byte) :
    (w.ghost.st.setDat (w.ghost.st.body a).datoff data).lookup (w.ghost.chain h) key =
      if (w.ghost.st.body a).key = key then some data
      else w.ghost.st.lookup (w.ghost.chain h) key := by
  have hmem := (hinv.lists.mem_chain h hh a).mpr ⟨ha, hpl⟩
  change Option.map _ ((w.ghost.chain h).find? fun i => (w.ghost.st.body i).key = key) = _
  rw [Store.lookup]
  cases hres : (w.ghost.chain h).find? fun i => (w.ghost.st.body i).key = key with
  | none =>
    have hak := List.find?_eq_none.mp hres a hmem
    rw [if_neg fun hk => hak (decide_eq_true hk)]
    rfl
  | some i =>
    obtain ⟨hi, hpi⟩ := (hinv.lists.mem_chain h hh i).mp (List.mem_of_find?_eq_some hres)
    have hkey : (w.ghost.st.body i).key = key := by simpa using List.find?_some hres
    by_cases hia : i = a
    · rw [hia] at hkey ⊢
      rw [if_pos hkey]
      exact congrArg some (Function.update_self _ _ _)
    · rw [if_neg fun hk => hia (hinv.lists.key_inj i hi a ha h hpi hpl (hkey.trans hk.symm))]
      exact congrArg some (Function.update_of_ne (fun he => hia
        (hinv.records.dat_inj i hi a ha he)) _ _)

section Store

variable {key data : List Byte} {flag : ℤ} {db : DB}

/-- The key is bound to the data and the operation may unlock its chain. -/
structure Stored (fuel : ℕ) (allowed : P → Op → Prop) (p : P) (o : KeyOp) (m n : Map) (db : DB)
    (w : DbWorld P) : Prop where
  inv : Inv fuel allowed w
  onChain : OnChain o db
  working : Working p o m (chainLocks (hashOf o.key) .wrlck) w
  contents : Contents (hashOf o.key) n w
  hands : EmptyHands p w

/-- The key is added to the chain with a new record. -/
theorem wp_appendRecord (ho : o = .store key data flag) (hok : o.Ok)
    (hdlen : data.length + 1 ≤ DATLEN_MAX) {ptr : ℤ} (hptr : ptr = v) (count : DB → DB)
    (hcount : ∀ db : DB, db.SameChain (count db)) (hdb : OnChain o db)
    (hs : Storing fuel allowed p o m n v (chainLocks (hashOf o.key) .wrlck) w₀)
    (hhands : EmptyHands p w₀) {post : DB × ℤ → Pos → DbWorld P → Prop}
    (h : ∀ db' pos' w, Stored fuel allowed p o m (Function.update n key (some data)) db' w →
      post (db', 0) pos' w) :
    (outline fuel allowed).Wp p (.keyed o) (do
      let db ← dbWritedat db data 0 .seekEnd
      let db ← dbWriteidx db key 0 .seekEnd ptr
      dbWriteptr db.chainoff db.idxoff
      return (count db, 0)) pos w₀ post := by
  have hkey : KeyOk key ∧ ∀ c ∈ data, c ≠ 0 := by
    rw [ho] at hok
    exact ⟨hok.1, hok.2.1⟩
  refine (outline fuel allowed).wp_bind (wp_writedatEnd hkey.2 hs hhands ?_)
  intro d pos₁ w₁ hs₁ hmade
  refine (outline fuel allowed).wp_bind (wp_writeidxEnd ho hkey.1 hdlen hptr hs₁ hmade
    ?_ rfl rfl ?_)
  · exact ⟨hdb.opened, hdb.chainoff⟩
  intro db₂ a pos₂ w₂ hdb₂ hidx hs₂ hown hdat
  refine (outline fuel allowed).wp_bind (wp_link ho hkey.1 (by rw [hdb₂.chainoff]) hidx hs₂ hown rfl
    hdat ?_)
  intro pos₃ w₃ hinv₃ hw hc hhands₃
  exact h _ _ _ ⟨hinv₃, hdb₂.of_sameChain (hcount db₂), hw, hc, hhands₃⟩

/-- The key is added to the chain with a record of the free list. -/
theorem wp_reuseRecord (ho : o = .store key data flag) (hok : o.Ok) {a u : ℕ} {b : Body}
    {ptr : ℤ} (hptr : ptr = v) (count : DB → DB)
    (hcount : ∀ db : DB, db.SameChain (count db)) (hdb : OnChain o db)
    (hs : Storing fuel allowed p o m n v (chainLocks (hashOf o.key) .wrlck) w₀)
    (hown : OwnRecord p a u b w₀) (hblank : Blank b.key) (hklen : b.key.length = key.length)
    (hdlen : b.datlen = data.length + 1) (hidx : db.idxoff = a) (hdatoff : db.datoff = b.datoff)
    {post : DB × ℤ → Pos → DbWorld P → Prop}
    (h : ∀ db' pos' w, Stored fuel allowed p o m (Function.update n key (some data)) db' w →
      post (db', 0) pos' w) :
    (outline fuel allowed).Wp p (.keyed o) (do
      let db ← dbWritedat db data db.datoff .seekSet
      let db ← dbWriteidx db key db.idxoff .seekSet ptr
      dbWriteptr db.chainoff db.idxoff
      return (count db, 0)) pos w₀ post := by
  have hkey : KeyOk key ∧ ∀ c ∈ data, c ≠ 0 := by
    rw [ho] at hok
    exact ⟨hok.1, hok.2.1⟩
  refine (outline fuel allowed).wp_bind (wp_writeOwnData hkey.2 hs hown hblank hdlen hdatoff ?_)
  intro pos₁ w₁ hs₁ hown₁ hdat₁
  refine (outline fuel allowed).wp_bind (wp_writeOwnIdx ho hkey.1 hptr hs₁ hown₁ hblank hklen hdat₁
    ?_ ?_ rfl hdlen.symm ?_)
  · exact ⟨hdb.opened, hdb.chainoff⟩
  · exact hidx
  intro db₂ pos₂ w₂ hdb₂ hidx₂ hs₂ hown₂ hdat₂
  refine (outline fuel allowed).wp_bind (wp_link ho hkey.1 (by rw [hdb₂.chainoff]) hidx₂ hs₂ hown₂
    rfl hdat₂ ?_)
  intro pos₃ w₃ hinv₃ hw hc hhands₃
  exact h _ _ _ ⟨hinv₃, hdb₂.of_sameChain (hcount db₂), hw, hc, hhands₃⟩

/-- The head of the locked chain is read; `n` is what the chain holds now. -/
theorem wp_readHead (hinv : Inv fuel allowed w₀) (hdb : OnChain o db)
    (hw : Working p o m (chainLocks (hashOf o.key) .wrlck) w₀)
    (hc : Contents (hashOf o.key) n w₀) (hm : Missing o.key w₀) (hhands : EmptyHands p w₀)
    {post : ℤ → Pos → DbWorld P → Prop}
    (h : ∀ (v : ℕ) pos' w, Storing fuel allowed p o m n v (chainLocks (hashOf o.key) .wrlck) w →
      EmptyHands p w → post v pos' w) :
    (outline fuel allowed).Wp p (.keyed o) (dbReadptr db.chainoff) pos w₀ post := by
  have hh := hashOf_lt o.key
  have hs : Storing fuel allowed p o m n (w₀.ghost.st.ptr (cell (hashOf o.key)))
      (chainLocks (hashOf o.key) .wrlck) w₀ := ⟨hinv, hw, hc, hm, rfl⟩
  rw [hdb.chainoff]
  refine wp_reads (fun (r : ℤ) _ => r = w₀.ghost.st.ptr (cell (hashOf o.key))) hinv
    (readWp_readptr (a := cell (hashOf o.key)) (hinv.records.ok.ptr_le _)
    (known_ptr (Or.inl (cell_mem_heads hh)) ?_) fun _ => rfl) ?_
  · rw [hinv.lists.place_cell _ hh, hw.held]
    exact chainLocks_ne_none _ _
  · rintro r pos' w hinv' hr rfl
    exact h _ pos' w (hs.stable hinv' hr (chainLocks_ne_none _ _)) (hhands.stable hr)

/-- db_store of a key that is not there. -/
theorem wp_storeNew (hfuel : PTR_MAX < fuel) (ho : o = .store key data flag) (hok : o.Ok)
    (hdlen : data.length + 1 ≤ DATLEN_MAX) (hinv : Inv fuel allowed w₀)
    (hl : Locked p o m .wrlck w₀) (hdb : OnChain o db) (hm : Missing o.key w₀)
    {post : DB × ℤ → Pos → DbWorld P → Prop}
    (h : ∀ db' pos' w rc, mapOp o m = ((mapOp o m).1, .code rc) →
      Stored fuel allowed p o m (mapOp o m).1 db' w → post (db', rc) pos' w) :
    (outline fuel allowed).Wp p (.keyed o) (storeNew fuel db key data flag) pos w₀ post := by
  have hokey : o.key = key := by
    rw [ho]
    rfl
  have hnone : m key = none := by
    rw [← hokey, ← hl.contents o.key rfl]
    exact lookup_missing hm
  unfold storeNew storeNewWith
  by_cases hflag : flag = DB_REPLACE
  · have hmap : mapOp o m = (m, .code (-1)) := by
      simp only [ho, mapOp, hnone, if_pos hflag]
    rw [if_pos hflag]
    rw [hmap] at h
    exact h _ _ _ _ rfl ⟨hinv, ⟨hdb.opened, hdb.chainoff⟩, hl.working, hl.contents, hl.hands⟩
  · have hmap : mapOp o m = (Function.update m key (some data), .code 0) := by
      simp only [ho, mapOp, hnone, if_neg hflag]
    rw [if_neg hflag]
    rw [hmap] at h
    refine (outline fuel allowed).wp_bind (wp_readHead hinv hdb hl.working hl.contents hm hl.hands ?_)
    intro v pos₁ w₁ hs₁ hhands₁
    refine (outline fuel allowed).wp_bind (wp_findfree hfuel hs₁ hhands₁ ?_ ?_)
    · intro db₂ pos₂ w₂ hsame hs₂ hhands₂
      simp only
      rw [if_pos (by decide)]
      exact wp_appendRecord ho hok hdlen rfl (fun db => { db with cnt.stor1 := db.cnt.stor1 + 1 })
        (fun db => ⟨rfl, rfl, rfl⟩) (hdb.of_sameChain hsame) hs₂
        hhands₂ fun db' pos' w hst => h db' pos' w 0 rfl hst
    · intro db₂ a u b pos₂ w₂ hsame hs₂ hown hblank hklen hblen hidx hdatoff
      simp only
      rw [if_neg (by decide)]
      exact wp_reuseRecord ho hok rfl (fun db => { db with cnt.stor2 := db.cnt.stor2 + 1 })
        (fun db => ⟨rfl, rfl, rfl⟩) (hdb.of_sameChain hsame) hs₂ hown
        hblank hklen hblen hidx hdatoff fun db' pos' w hst => h db' pos' w 0 rfl hst

/-- db_store of a key that is there. -/
theorem wp_storeFound (ho : o = .store key data flag) (hok : o.Ok)
    (hdlen : data.length + 1 ≤ DATLEN_MAX) (hinv : Inv fuel allowed w₀)
    (hl : Locked p o m .wrlck w₀) (hdb : OnChain o db) {pre rest : List ℕ} {a : ℕ}
    (hf : Found o.key pre a rest db w₀) {post : DB × ℤ → Pos → DbWorld P → Prop}
    (h : ∀ db' pos' w rc, mapOp o m = ((mapOp o m).1, .code rc) →
      Stored fuel allowed p o m (mapOp o m).1 db' w → post (db', rc) pos' w) :
    (outline fuel allowed).Wp p (.keyed o) (storeFound db key data flag) pos w₀ post := by
  have hh := hashOf_lt o.key
  have hokey : o.key = key := by
    rw [ho]
    rfl
  have hbound : m key = some (w₀.ghost.st.dat (w₀.ghost.st.body a).datoff) := by
    rw [← hokey, ← hl.contents o.key rfl]
    exact lookup_found hf hinv
  unfold storeFound storeFoundWith
  simp only [DataArg.read_string]
  by_cases hflag : flag = DB_INSERT
  · have hmap : mapOp o m = (m, .code 1) := by
      simp only [ho, mapOp, hbound, if_pos hflag]
    rw [if_pos hflag]
    rw [hmap] at h
    exact h _ _ _ _ rfl ⟨hinv, ⟨hdb.opened, hdb.chainoff⟩, hl.working, hl.contents, hl.hands⟩
  have hmap : mapOp o m = (Function.update m key (some data), .code 0) := by
    simp only [ho, mapOp, hbound, if_neg hflag]
  rw [if_neg hflag]
  rw [hmap] at h
  split
  · -- the old record is deleted and a new one appended
    refine (outline fuel allowed).wp_bind (wp_dodelete hinv hl hdb hf ?_)
    intro db₁ pos₁ w₁ hinv₁ hdb₁ hw hc hhands
    have hmiss : Missing o.key w₁ := missing_of_lookup (by rw [hc o.key rfl, Function.update_self])
    refine (outline fuel allowed).wp_bind (wp_readHead hinv₁ hdb₁ hw hc hmiss hhands ?_)
    intro v pos₂ w₂ hs₂ hhands₂
    refine wp_appendRecord ho hok hdlen rfl (fun db => { db with cnt.stor3 := db.cnt.stor3 + 1 })
      (fun db => ⟨rfl, rfl, rfl⟩) hdb₁ hs₂ hhands₂ ?_
    intro db' pos' w hst
    rw [hokey, Function.update_idem] at hst
    exact h db' pos' w 0 rfl hst
  · -- the data has the same length and is overwritten
    rename_i hsame
    have hsame' : db.datlen = data.length + 1 := (not_not.mp hsame).symm
    obtain ⟨ha, hpl⟩ := hf.mem hinv
    refine (outline fuel allowed).wp_bind (wp_writedatSet hf.located.datoff
      fun w s hinv₁ hr hfiles hlocks => ?_)
    have hl₁ := hl.stable hinv hr
    have hf₁ := hf.stable hinv hr hl.held_ne
    obtain ⟨ha₁, hpl₁⟩ := hf₁.mem hinv₁
    have hbody : w.ghost.st.body a = w₀.ghost.st.body a :=
      (hr.recs a ha (by rw [hpl]; exact hl.held_ne)).1
    have hlen := hinv₁.records.dat_len a ha₁
    have hdl : (w.ghost.st.body a).datlen = data.length + 1 := by
      rw [hbody, ← hf.located.datlen, hsame']
    rw [← hbody] at hfiles
    have hfiles' := hfiles.trans (files_setDat hinv₁ (hinv₁.records.dat_mem a ha₁) (by omega))
    have hwr : w.ghost.held p (.chain (hashOf o.key)) = some .wrlck := by
      rw [hl₁.working.held, chainLocks, Function.update_self]
    have hbegun : Begun w.hist (w.ghost.st.body a).key data := by
      rw [hf₁.key_eq, hokey]
      exact .of_current (ho ▸ hl₁.working.current)
    have hdata : ∀ c ∈ data, c ≠ 0 := by
      rw [ho] at hok
      exact hok.2.1
    have hmoves := moves_overwrite (.keyed o) hinv₁ hwr ha₁ hpl₁ hdata hdl.symm hbegun hfiles'
      hlocks (c := .write .dat (data ++ [NEWLINE])) trivial
    refine ⟨_, hmoves, fun pos' => h _ pos' _ 0 rfl ⟨hmoves.1, ⟨hdb.opened, hdb.chainoff⟩,
      hl₁.working.step hl₁.working.held rfl rfl, fun k hk => ?_,
      ⟨hl₁.hands.not_owned, hl₁.hands.not_made⟩⟩⟩
    change (w.ghost.st.setDat _ data).lookup (w.ghost.chain _) k =
      Function.update m key (some data) k
    rw [hinv₁.lookup_setDat (hashOf_lt o.key) ha₁ hpl₁, hf₁.key_eq, hokey]
    by_cases hkk : key = k
    · rw [if_pos hkk, ← hkk, Function.update_self]
    · rw [if_neg hkk, Function.update_of_ne (Ne.symm hkk), ← hokey]
      exact hl₁.contents k hk

end Store

/-- db_store. -/
theorem safe_store (hfuel : PTR_MAX < fuel) {key data : List Byte} {flag : ℤ} {db : DB}
    (hok : (KeyOp.store key data flag).Ok) (hdb : db.Opened)
    (hstart : Started p (.store key data flag) w₀) (hns : ¬ Scanner allowed p) :
    (outline fuel allowed).Safe p (.keyed (.store key data flag))
      (keyOpBody fuel (.store key data flag) db) pos w₀ := by
  have hflag : ¬ (flag ≠ DB_INSERT ∧ flag ≠ DB_REPLACE ∧ flag ≠ DB_STORE) := by
    rintro ⟨h₁, h₂, h₃⟩
    rcases hok.2.2 with h | h | h
    · exact h₁ h
    · exact h₂ h
    · exact h₃ h
  have hstop : MayStop p w₀ := by
    refine hstart.hands.mayStop ?_
    rw [hstart.held]
    nofun
  have hunlock : ∀ {m : Map} {db' : DB} {pos' : Pos} {w : DbWorld P} {rc : ℤ},
      mapOp (.store key data flag) m = ((mapOp (.store key data flag) m).1, .code rc) →
      Stored fuel allowed p (.store key data flag) m (mapOp (.store key data flag) m).1 db' w →
      (outline fuel allowed).Wp p (.keyed (.store key data flag)) (do
        let rc' ← unLock .idx db'.chainoff 1
        errDumpIf (rc' < 0) "db_store: un_lock error"
        return (db', rc)) pos' w fun r l' w' => (outline fuel allowed).Safe p
          (.keyed (.store key data flag)) (.ret (r.1, .code r.2)) l' w' := by
    intro m db' pos' w rc hmap hst
    refine wp_unlockChain hst.onChain hst.inv hst.working hst.contents hst.hands
      fun w' hinv' hdone => ?_
    rw [hmap] at hdone
    exact safe_done hdone hst.onChain.opened hns
  refine (outline fuel allowed).safe_of_wp ((outline fuel allowed).wp_bind ?_)
  unfold dbStore dbStoreWith
  simp only [DataArg.read_string]
  rw [if_neg hflag]
  refine (outline fuel allowed).wp_bind (wp_errDumpIf (fun _ => hstop) fun hlen => ?_)
  have hdlen : data.length + 1 ≤ DATLEN_MAX := by omega
  refine (outline fuel allowed).wp_bind (wp_findAndLock true hfuel hdb hstart
    (fun h => Bool.noConfusion h) ?_ ?_)
  · intro m pre a rest db₁ pos₁ w₁ hinv₁ hl hdb₁ hf
    simp only
    refine (outline fuel allowed).wp_bind ?_
    rw [if_neg (by decide)]
    exact wp_storeFound rfl hok hdlen hinv₁ hl hdb₁ hf fun db' pos' w rc hmap hst =>
      hunlock hmap hst
  · intro m db₁ pos₁ w₁ hinv₁ hl hdb₁ hm
    simp only
    refine (outline fuel allowed).wp_bind ?_
    rw [if_pos (by decide)]
    exact wp_storeNew hfuel rfl hok hdlen hinv₁ hl hdb₁ hm fun db' pos' w rc hmap hst =>
      hunlock hmap hst

end Apue.Db
