import Apue.DbRules
import Apue.DbDeadlock

/-!
_db_find_and_lock and the end of an operation. Between the lock of its chain
and the unlock an operation works on a chain that nobody else changes; the
search finds the record with the key if the map has the key.
-/
namespace Apue.Db

open Programs Decimal ByteFiles Pointers Threads

variable {P : Type} [DecidableEq P] {fuel : ℕ} {allowed : P → Op → Prop} {w₀ : DbWorld P}
variable {p : P} {pos : Pos} {o : KeyOp} {m : Map}

/-- The record `a` with the key, and the handle as the search leaves it. -/
structure Found (key : List Byte) (pre : List ℕ) (a : ℕ) (rest : List ℕ) (db : DB)
    (w : DbWorld P) : Prop where
  chain : w.ghost.chain (hashOf key) = pre ++ a :: rest
  key_eq : (w.ghost.st.body a).key = key
  located : db.Located a (w.ghost.st.ptr a) (w.ghost.st.body a)
  ptroff : db.ptroff = lastCell (cell (hashOf key)) pre

/-- No record of the chain has the key. -/
def Missing (key : List Byte) (w : DbWorld P) : Prop :=
  ∀ a ∈ w.ghost.chain (hashOf key), (w.ghost.st.body a).key ≠ key

theorem Found.mem {key : List Byte} {pre rest : List ℕ} {a : ℕ} {db : DB} {w : DbWorld P}
    (hf : Found key pre a rest db w) (hinv : Inv fuel allowed w) :
    a ∈ w.ghost.st.offs ∧ w.ghost.place a = .chain (hashOf key) := by
  refine (hinv.lists.mem_chain _ (hashOf_lt key) a).mp ?_
  rw [hf.chain]
  exact List.mem_append_right _ List.mem_cons_self

theorem Found.stable {key : List Byte} {pre rest : List ℕ} {a : ℕ} {db : DB} {w w' : DbWorld P}
    (hf : Found key pre a rest db w) (hinv : Inv fuel allowed w) (hr : Rely p w w')
    (hheld : w.ghost.held p (.chain (hashOf key)) ≠ none) : Found key pre a rest db w' := by
  obtain ⟨ha, hpl⟩ := hf.mem hinv
  have hs : Sees (w.ghost.held p) p (w.ghost.place a) := by
    rw [hpl]
    exact hheld
  have hrec := (hr.recs a ha hs).1
  have hptr := (hr.cells a (Or.inr ha) hs).2
  exact {
    chain := (hr.chain _ hheld).1.trans hf.chain
    key_eq := by
      rw [hrec]
      exact hf.key_eq
    located := by
      rw [hrec, hptr]
      exact hf.located
    ptroff := hf.ptroff }

theorem Missing.stable {key : List Byte} {w w' : DbWorld P} (hm : Missing key w)
    (hinv : Inv fuel allowed w) (hr : Rely p w w')
    (hheld : w.ghost.held p (.chain (hashOf key)) ≠ none) : Missing key w' := by
  intro a ha
  rw [(hr.chain _ hheld).1] at ha
  rw [(sameOn_chain hinv hr (hashOf_lt key) hheld a ha).1]
  exact hm a ha

theorem chainLocks_ne_none (h : ℕ) (type : LockType) : chainLocks h type (.chain h) ≠ none := by
  simp only [chainLocks, Function.update_self]
  exact Option.some_ne_none _

theorem chainLocks_other {r : Region} (hr : r.rank = 1) (h : ℕ) (type : LockType) :
    chainLocks h type r = none := by
  have hne : r ≠ .chain h := by
    rintro rfl
    simp [Region.rank] at hr
  simp only [chainLocks, Function.update_of_ne hne, noLocks]

/-- What a process knows when it has locked its chain. -/
structure Locked (p : P) (o : KeyOp) (m : Map) (type : LockType) (w : DbWorld P) : Prop where
  working : Working p o m (chainLocks (hashOf o.key) type) w
  contents : Contents (hashOf o.key) m w
  hands : EmptyHands p w

theorem Locked.held_ne {type : LockType} {w : DbWorld P} (hl : Locked p o m type w) :
    w.ghost.held p (.chain (hashOf o.key)) ≠ none := by
  rw [hl.working.held]
  exact chainLocks_ne_none _ _

theorem Locked.not_free {type : LockType} {w : DbWorld P} (hl : Locked p o m type w) :
    w.ghost.held p .free ≠ some .wrlck := by
  rw [hl.working.held, chainLocks_other rfl]
  nofun

theorem Locked.stable {type : LockType} {w w' : DbWorld P} (hl : Locked p o m type w)
    (hinv : Inv fuel allowed w) (hr : Rely p w w') : Locked p o m type w' where
  working := hl.working.stable hr (chainLocks_ne_none _ _)
  contents := hl.contents.stable hinv hr (hashOf_lt _) hl.held_ne
  hands := hl.hands.stable hr

/-- What a process knows at the start of an operation on a key. -/
structure Started (p : P) (o : KeyOp) (w : DbWorld P) : Prop where
  held : w.ghost.held p = noLocks
  expect : w.ghost.expect p = none
  current : Hist.current w.hist p = some (.keyed o)
  hands : EmptyHands p w

theorem wp_setlkwChain {type : LockType} {off : ℕ} (hoff : off = cell (hashOf o.key))
    (hstart : Started p o w₀)
    (htype : type = .rdlck → ∃ key, o = .fetch key) {post : ℤ → Pos → DbWorld P → Prop}
    (h : ∀ m w, Inv fuel allowed w → Locked p o m type w → post 0 pos w) :
    (outline fuel allowed).Wp p (.keyed o)
      (.call (.setlkw .idx type off 1) .ret) pos w₀ post := by
  subst hoff
  refine wp_setlkw fun w s hinv hr hgranted hfiles hlocks => ?_
  have hheld := hr.held.trans hstart.held
  obtain ⟨hold, hmoves⟩ := moves_lockChain hinv htype hfiles hlocks hgranted hheld
    (hr.expect.trans hstart.expect)
  refine ⟨_, hmoves, h w.ghost.abs _ hmoves.1 ⟨⟨?_, ?_, ?_, fun _ _ => rfl⟩, ?_, ?_⟩⟩
  · refine (setHeld_self _ _ _).trans ?_
    rw [hheld]
    rfl
  · exact (current_sys _ _ _ _ _ _).trans (hr.current.trans hstart.current)
  · exact Function.update_self _ _ _
  · exact fun key hk => (hold key hk).symm
  · have := hstart.hands.stable hr
    exact ⟨this.not_owned, this.not_made⟩

theorem wp_lockChain {db : DB} (hoff : db.chainoff = cell (hashOf o.key)) {writelock : Bool}
    (hstart : Started p o w₀) (htype : writelock = false → ∃ key, o = .fetch key)
    {post : Unit → Pos → DbWorld P → Prop}
    (h : ∀ m w, Inv fuel allowed w → Locked p o m (if writelock then .wrlck else .rdlck) w →
      post () pos w) :
    (outline fuel allowed).Wp p (.keyed o) (lockChain db writelock) pos w₀ post := by
  cases writelock with
  | false =>
    refine (outline fuel allowed).wp_bind (wp_setlkwChain hoff hstart (fun _ => htype rfl) ?_)
    exact fun m w hinv hl => wp_check (by decide) (h m w hinv hl)
  | true =>
    refine (outline fuel allowed).wp_bind (wp_setlkwChain hoff hstart
      (fun ht : LockType.wrlck = .rdlck => nomatch ht) ?_)
    exact fun m w hinv hl => wp_check (by decide) (h m w hinv hl)

/-- The search of a locked chain. -/
theorem readWp_find (hfuel : PTR_MAX < fuel) {type : LockType} (hinv : Inv fuel allowed w₀)
    (hl : Locked p o m type w₀) {db : DB} {off : ℤ} (hoff : off = cell (hashOf o.key))
    (hptr : db.ptroff = cell (hashOf o.key)) {post : DB × ℤ → Pos → Prop}
    (hfound : ∀ pre a rest db' pos', db.SameChain db' → Found o.key pre a rest db' w₀ →
      post (db', a) pos')
    (hmissing : ∀ db' pos', db.SameChain db' → Missing o.key w₀ → post (db', 0) pos') :
    ReadWp (Known fuel allowed p w₀)
      (do
        let offset ← dbReadptr off
        findLoop fuel db o.key offset) pos post := by
  have hh := hashOf_lt o.key
  have hcell : w₀.ghost.st.IsCell (cell (hashOf o.key)) := Or.inl (cell_mem_heads hh)
  have hsee : ∀ x, w₀.ghost.place x = .chain (hashOf o.key) →
      Sees (w₀.ghost.held p) p (w₀.ghost.place x) := fun x hx => by
    rw [hx]
    exact hl.held_ne
  have hlinked := hinv.linked_chain hh hl.held_ne hl.not_free
  have hmem : ∀ a ∈ w₀.ghost.chain (hashOf o.key), a ∈ w₀.ghost.st.offs :=
    fun a ha => ((hinv.lists.mem_chain _ hh a).mp ha).1
  have hlen := hinv.records.ok.length_linked_le hlinked (hinv.lists.nodup_chain _ hh) hmem
  rw [hoff]
  refine ReadWp.bind (readWp_readptr (hinv.records.ok.ptr_le _)
    (known_ptr hcell (hsee _ (hinv.lists.place_cell _ hh))) fun pos' => ?_)
  refine readWp_findLoop w₀.ghost.st.body o.key (by omega) hlinked (fun a ha => ?_)
    hptr ?_ ?_
  · exact known_rec hinv (hmem a ha) (hsee a ((hinv.lists.mem_chain _ hh a).mp ha).2)
  · intro pre a rest db' pos'' hch hkey hsame hloc hpo
    exact hfound pre a rest db' pos'' hsame ⟨hch, hkey, hloc, hpo⟩
  · intro db' pos'' hmiss hsame
    exact hmissing db' pos'' hsame hmiss

/-- What a handle keeps from the search on: the offset of its chain. -/
structure OnChain (o : KeyOp) (db : DB) : Prop where
  opened : db.Opened
  chainoff : db.chainoff = cell (hashOf o.key)

theorem OnChain.of_sameChain {db db' : DB} (h : OnChain o db) (hs : db.SameChain db') :
    OnChain o db' := ⟨h.opened.of_sameChain hs, hs.2.2.trans h.chainoff⟩

theorem wp_findAndLock (writelock : Bool) (hfuel : PTR_MAX < fuel) {db : DB} (hdb : db.Opened)
    (hstart : Started p o w₀) (htype : writelock = false → ∃ key, o = .fetch key)
    {post : DB × ℤ → Pos → DbWorld P → Prop}
    (hfound : ∀ m pre a rest db' pos' w, Inv fuel allowed w →
      Locked p o m (if writelock then .wrlck else .rdlck) w → OnChain o db' →
      Found o.key pre a rest db' w → post (db', 0) pos' w)
    (hmissing : ∀ m db' pos' w, Inv fuel allowed w →
      Locked p o m (if writelock then .wrlck else .rdlck) w → OnChain o db' →
      Missing o.key w → post (db', -1) pos' w) :
    (outline fuel allowed).Wp p (.keyed o) (dbFindAndLock fuel db o.key writelock) pos w₀ post := by
  have hoff : dbHash db o.key * PTR_SZ + db.hashoff = cell (hashOf o.key) := by
    rw [dbHash_eq hdb, hdb.2, cell]
  unfold dbFindAndLock
  simp only
  generalize hdb₁ : ({ db with
    chainoff := dbHash db o.key * PTR_SZ + db.hashoff
    ptroff := ((dbHash db o.key * PTR_SZ + db.hashoff : ℕ) : ℤ) } : DB) = db₁
  have hchain : OnChain o db₁ := by
    subst hdb₁
    exact ⟨hdb, hoff⟩
  have hptr : db₁.ptroff = cell (hashOf o.key) := by
    subst hdb₁
    exact congrArg Nat.cast hoff
  refine (outline fuel allowed).wp_bind (wp_lockChain hchain.chainoff hstart htype ?_)
  intro m w hinv hl
  rw [← Prog.bind_assoc]
  refine wp_reads (fun v _ => OnChain o v.1 ∧
    ((∃ pre a rest, v.2 = 0 ∧ Found o.key pre a rest v.1 w) ∨ v.2 = -1 ∧ Missing o.key w)) hinv
    (ReadWp.bind (readWp_find hfuel hinv hl (congrArg Nat.cast hoff) hptr ?_ ?_)) ?_
  · intro pre a rest db' pos' hsame hf
    have ha := (hf.mem hinv).1
    have hne : (a : ℤ) ≠ 0 := by
      have := (hinv.records.ok.off_bounds ha).1
      omega
    exact ⟨hchain.of_sameChain hsame, Or.inl ⟨pre, a, rest, if_neg hne, hf⟩⟩
  · intro db' pos' hsame hm
    exact ⟨hchain.of_sameChain hsame, Or.inr ⟨by simp, hm⟩⟩
  · rintro ⟨db', found⟩ pos' w' hinv' hr ⟨hdb', ⟨pre, a, rest, rfl, hf⟩ | ⟨rfl, hm⟩⟩
    · exact hfound m pre a rest db' pos' w' hinv' (hl.stable hinv hr) hdb'
        (hf.stable hinv hr hl.held_ne)
    · exact hmissing m db' pos' w' hinv' (hl.stable hinv hr) hdb' (hm.stable hinv hr hl.held_ne)

/-- The operation has released its chain and only has to return. -/
structure Done (p : P) (o : KeyOp) (r : Res) (w : DbWorld P) : Prop where
  held : w.ghost.held p = noLocks
  expect : w.ghost.expect p = some (o, r)
  hands : EmptyHands p w

theorem wp_unlockChain {α : Type} {db : DB} {a : α} {type : LockType} {msg : String}
    (hdb : OnChain o db) (hinv₀ : Inv fuel allowed w₀)
    (hw : Working p o m (chainLocks (hashOf o.key) type) w₀)
    (hc : Contents (hashOf o.key) (mapOp o m).1 w₀) (hh : EmptyHands p w₀)
    {post : DB × α → Pos → DbWorld P → Prop}
    (h : ∀ w, Inv fuel allowed w → Done p o (mapOp o m).2 w → post (db, a) pos w) :
    (outline fuel allowed).Wp p (.keyed o) (do
      let rc ← unLock .idx db.chainoff 1
      errDumpIf (rc < 0) msg
      return (db, a)) pos w₀ post := by
  have hne : w₀.ghost.held p (.chain (hashOf o.key)) ≠ none := by
    rw [hw.held]
    exact chainLocks_ne_none _ _
  refine (outline fuel allowed).wp_bind ?_
  refine wp_unlck fun w s hinv hr hfiles hlocks => ?_
  rw [hdb.chainoff] at hlocks ⊢
  have hw' := hw.stable hr (chainLocks_ne_none _ _)
  have hc' := hc.stable hinv₀ hr (hashOf_lt _) hne
  have hmoves := moves_unlockChain (.keyed o) hinv (hashOf_lt o.key) hfiles hlocks
    (by
      rw [hw'.held, chainLocks_other rfl]
      nofun)
    (fun key hk => (hw'.abs key hk).trans (hc' key hk).symm)
  have hhands := hh.stable hr
  refine ⟨_, hmoves, (outline fuel allowed).wp_bind (wp_check (by decide) (h _ hmoves.1 ?_))⟩
  refine ⟨?_, hw'.expect, ⟨hhands.not_owned, hhands.not_made⟩⟩
  refine (setHeld_self _ _ _).trans ?_
  rw [hw'.held, chainLocks, Function.update_idem]
  exact Function.update_eq_self_iff.mpr rfl

/-- The return of an operation that is done. -/
theorem safe_done {r : Res} (hd : Done p o r w₀) {db : DB} (hdb : db.Opened)
    (hns : ¬ Scanner allowed p) :
    (outline fuel allowed).Safe p (.keyed o) (.ret (db, r)) pos w₀ := by
  intro w hinv hr
  have hhands := hd.hands.stable hr
  have hmoves := moves_ret (p := p) (.keyed o) (r := r) hinv hhands.not_owned
    (hr.expect.trans hd.expect) (fun _ _ _ hop => nomatch hop)
  refine ⟨_, hmoves, ⟨hdb, hr.held.trans hd.held, ?_, hhands.not_owned, hhands.not_made,
    fun hs => absurd hs hns⟩⟩
  exact Function.update_self _ _ _

/-- A key that was found is bound to the data of its record. -/
theorem lookup_found {key : List Byte} {pre rest : List ℕ} {a : ℕ} {db : DB} {w : DbWorld P}
    (hf : Found key pre a rest db w) (hinv : Inv fuel allowed w) :
    w.ghost.st.lookup (w.ghost.chain (hashOf key)) key =
      some (w.ghost.st.dat (w.ghost.st.body a).datoff) := by
  have hh := hashOf_lt key
  obtain ⟨ha, hpl⟩ := hf.mem hinv
  rw [Store.lookup]
  have hfind : (w.ghost.chain (hashOf key)).find? (fun x => (w.ghost.st.body x).key = key) =
      some a := by
    cases hres : (w.ghost.chain (hashOf key)).find? fun x => (w.ghost.st.body x).key = key with
    | none =>
      have := List.find?_eq_none.mp hres a (by
        rw [hf.chain]
        exact List.mem_append_right _ List.mem_cons_self)
      exact absurd (decide_eq_true hf.key_eq) this
    | some b =>
      have hb := List.mem_of_find?_eq_some hres
      obtain ⟨hbo, hbp⟩ := (hinv.lists.mem_chain _ hh b).mp hb
      have hkey : (w.ghost.st.body b).key = key := by simpa using List.find?_some hres
      rw [hinv.lists.key_inj b hbo a ha _ hbp hpl (hkey.trans hf.key_eq.symm)]
  rw [hfind]
  rfl

omit [DecidableEq P] in
theorem lookup_missing {key : List Byte} {w : DbWorld P} (hm : Missing key w) :
    w.ghost.st.lookup (w.ghost.chain (hashOf key)) key = none := by
  rw [Store.lookup, List.find?_eq_none.mpr fun a ha => by simpa using hm a ha]
  rfl

/-- db_fetch. -/
theorem safe_fetch (hfuel : PTR_MAX < fuel) {key : List Byte} {db : DB} (hdb : db.Opened)
    (hstart : Started p (.fetch key) w₀) (hns : ¬ Scanner allowed p) :
    (outline fuel allowed).Safe p (.keyed (.fetch key)) (keyOpBody fuel (.fetch key) db) pos
      w₀ := by
  refine (outline fuel allowed).safe_of_wp ((outline fuel allowed).wp_bind
    ((outline fuel allowed).wp_bind
      (wp_findAndLock false hfuel hdb hstart (fun _ => ⟨key, rfl⟩) ?_ ?_)))
  · intro m pre a rest db₁ pos₁ w₁ hinv₁ hl hdb₁ hf
    simp only
    have hbound : m key = some (w₁.ghost.st.dat (w₁.ghost.st.body a).datoff) :=
      (hl.contents key rfl).symm.trans (lookup_found hf hinv₁)
    obtain ⟨ha, hpl⟩ := hf.mem hinv₁
    have hs : Sees (w₁.ghost.held p) p (w₁.ghost.place a) := by
      rw [hpl]
      exact hl.held_ne
    refine (outline fuel allowed).wp_bind ?_
    rw [if_neg (by decide)]
    refine (outline fuel allowed).wp_bind (wp_reads (fun db' _ => db' = { db₁ with
        datbuf := w₁.ghost.st.dat (w₁.ghost.st.body a).datoff }) hinv₁ (readWp_readdat
      hf.located.datoff (hf.located.datlen.trans (hinv₁.records.dat_len a ha))
      (hinv₁.records.ok.dat_ok _ (hinv₁.records.dat_mem a ha))
      (known_dat ha hs) fun _ => rfl) ?_)
    rintro db₂ pos₂ w₂ hinv₂ hr rfl
    have hl₂ := hl.stable hinv₁ hr
    refine wp_unlockChain ?_ hinv₂ hl₂.working hl₂.contents hl₂.hands fun w₃ hinv₃ hdone => ?_
    · exact ⟨hdb₁.opened, hdb₁.chainoff⟩
    · simp only [mapOp, hbound] at hdone
      exact safe_done hdone hdb₁.opened hns
  · intro m db₁ pos₁ w₁ hinv₁ hl hdb₁ hm
    simp only
    have hnone : m key = none := (hl.contents key rfl).symm.trans (lookup_missing hm)
    refine (outline fuel allowed).wp_bind ?_
    rw [if_pos (by decide)]
    refine wp_unlockChain ?_ hinv₁ hl.working hl.contents hl.hands fun w₃ hinv₃ hdone => ?_
    · exact ⟨hdb₁.opened, hdb₁.chainoff⟩
    · simp only [mapOp, hnone] at hdone
      exact safe_done hdone hdb₁.opened hns

end Apue.Db
