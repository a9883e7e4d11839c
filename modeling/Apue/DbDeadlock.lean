import Apue.DbLocks

/-!
Every function of the database library keeps the lock order of DbLocks, and
so does every interleaving of its operations: no cycle of waiting processes is
reachable and an idle process holds no lock. Nothing is assumed about the
contents of the files, the keys or the data.
-/
namespace Apue.Db

open Programs Decimal Threads

/-- The handle keeps its geometry and the locks are what they were. -/
def Keeps (db : DB) (held : Held) (db' : DB) (held' : Held) : Prop :=
  db.SameChain db' ∧ held' = held

theorem lockWp_writeptr (off ptr : ℤ) (held : Held) :
    LockWp (dbWriteptr off ptr) held fun _ held' => held' = held := by
  refine LockWp.bind (LockWp.errDumpIf (LockWp.bind fun pos => ?_))
  exact LockWp.bind (LockWp.errDumpIf (LockWp.bind fun n => LockWp.errDumpIf rfl))

/-- The locks held by an operation that has found its chain. -/
def chainLocks (h : ℕ) (type : LockType) : Held :=
  Function.update noLocks (.chain h) (some type)

private theorem rank_chainLocks {h : ℕ} {type : LockType} {r : Region}
    (hr : r.rank = 1) : ∀ r', chainLocks h type r' ≠ none → r'.rank < r.rank := by
  intro r' hr'
  by_cases he : r' = .chain h
  · rw [he, hr]
    exact Nat.zero_lt_one
  · exact absurd (Function.update_of_ne he _ _) hr'

/-- What `held` becomes while the region `r` is locked for an append. -/
def appending (whence : Whence) (r : Region) (held : Held) : Held :=
  if whence = .seekEnd then Function.update held r (some .wrlck) else held

theorem lockWp_appendLock (whence : Whence) (r : Region) (hr : r.Valid) (hlen : r.len = 0)
    (msg : String) (held : Held)
    (hrank : whence = .seekEnd → ∀ r', held r' ≠ none → r'.rank < r.rank) :
    LockWp (appendLock whence r.fd r.start msg) held
      fun _ held' => held' = appending whence r held := by
  unfold appendLock appending
  split
  · rename_i hw
    exact ⟨r, hr, rfl, rfl, hlen.symm, hrank hw, LockWp.errDumpIf rfl⟩
  · rfl

theorem lockWp_appendUnlock (whence : Whence) (r : Region) (hr : r.Valid) (hlen : r.len = 0)
    (msg : String) (held : Held) (hfree : whence = .seekEnd → held r = none) :
    LockWp (appendUnlock whence r.fd r.start msg) (appending whence r held)
      fun _ held' => held' = held := by
  unfold appendUnlock appending
  split
  · rename_i hw
    refine ⟨r, hr, rfl, rfl, hlen.symm, LockWp.errDumpIf ?_⟩
    rw [Function.update_idem]
    exact Function.update_eq_self_iff.mpr (hfree hw).symm
  · rfl

/-- An append is made with nothing but a chain locked. -/
def Appendable (whence : Whence) (held : Held) : Prop :=
  whence = .seekEnd → ∃ h, held = chainLocks h .wrlck

theorem Appendable.rank_lt {whence : Whence} {held : Held} (ha : Appendable whence held)
    {r : Region} (hr : r.rank = 1) :
    whence = .seekEnd → ∀ r', held r' ≠ none → r'.rank < r.rank := by
  intro hw
  obtain ⟨h, rfl⟩ := ha hw
  exact rank_chainLocks hr

theorem Appendable.not_held {whence : Whence} {held : Held} (ha : Appendable whence held)
    {r : Region} (hr : r.rank = 1) : whence = .seekEnd → held r = none := by
  intro hw
  obtain ⟨h, rfl⟩ := ha hw
  have hne : r ≠ .chain h := by
    rintro rfl
    simp [Region.rank] at hr
  simp only [chainLocks, Function.update_of_ne hne, noLocks]

theorem lockWp_writedat (db : DB) (data : List Byte) (off : ℤ) (whence : Whence)
    (held : Held) (ha : Appendable whence held) :
    LockWp (dbWritedat db data off whence) held (Keeps db held) := by
  refine LockWp.bind ((lockWp_appendLock whence .datEnd trivial rfl _ held
    (ha.rank_lt rfl)).mono ?_)
  rintro _ held' rfl
  refine LockWp.bind fun pos => LockWp.bind (LockWp.errDumpIf (LockWp.bind fun n => ?_))
  refine LockWp.bind (LockWp.errDumpIf (LockWp.bind ?_))
  refine (lockWp_appendUnlock whence .datEnd trivial rfl _ held (ha.not_held rfl)).mono ?_
  rintro _ held' rfl
  exact ⟨⟨rfl, rfl, rfl⟩, rfl⟩

theorem lockWp_writeidx (db : DB) (key : List Byte) (off : ℤ) (whence : Whence) (ptr : ℤ)
    (held : Held) (hdb : db.Opened) (ha : Appendable whence held) :
    LockWp (dbWriteidx db key off whence ptr) held (Keeps db held) := by
  have hstart : (db.nhash + 1) * PTR_SZ + 1 = Region.idxEnd.start := by
    rw [hdb.1]
    rfl
  unfold dbWriteidx dbWriteidxWith
  simp only [sprintfIdx_unchecked, Prog.ret_bind, hstart]
  refine LockWp.bind (LockWp.errDumpIf (LockWp.bind (LockWp.errDumpIf (LockWp.bind ?_))))
  refine (lockWp_appendLock whence .idxEnd trivial rfl _ held (ha.rank_lt rfl)).mono ?_
  rintro _ held' rfl
  refine LockWp.bind fun pos => LockWp.bind (LockWp.errDumpIf (LockWp.bind fun n => ?_))
  refine LockWp.bind (LockWp.errDumpIf (LockWp.bind ?_))
  refine (lockWp_appendUnlock whence .idxEnd trivial rfl _ held (ha.not_held rfl)).mono ?_
  rintro _ held' rfl
  exact ⟨⟨rfl, rfl, rfl⟩, rfl⟩

theorem lockWp_lock (r : Region) (hr : r.Valid) (type : LockType) (held : Held)
    {post : ℤ → Held → Prop} (hrank : ∀ r', held r' ≠ none → r'.rank < r.rank)
    (hpost : post 0 (Function.update held r (some type))) :
    LockWp (.call (.setlkw r.fd type r.start r.len) .ret) held post :=
  ⟨r, hr, rfl, rfl, rfl, hrank, hpost⟩

/-- Giving back the region `r` restores the locks held before it was taken. -/
theorem lockWp_unlock (r : Region) (hr : r.Valid) (type : LockType) (held : Held)
    {post : ℤ → Held → Prop} (hfree : held r = none) (hpost : post 0 held) :
    LockWp (.call (.unlck r.fd r.start r.len) .ret)
      (Function.update held r (some type)) post := by
  refine ⟨r, hr, rfl, rfl, rfl, ?_⟩
  rw [Function.update_idem, Function.update_eq_self_iff.mpr hfree.symm]
  exact hpost

theorem chainLocks_free (h : ℕ) (type : LockType) : chainLocks h type .free = none := by
  simp [chainLocks, noLocks]

theorem not_appendable_needed {whence : Whence} (hw : whence ≠ .seekEnd) (held : Held) :
    Appendable whence held := fun h => absurd h hw

theorem lockWp_dodelete (db : DB) (hdb : db.Opened) (h : ℕ) :
    LockWp (dbDodelete db) (chainLocks h .wrlck) (Keeps db (chainLocks h .wrlck)) := by
  refine LockWp.bind (lockWp_lock .free trivial .wrlck _ (rank_chainLocks rfl) ?_)
  refine LockWp.bind (LockWp.errDumpIf (LockWp.bind ?_))
  refine (lockWp_writedat _ _ _ _ _ (not_appendable_needed (by decide) _)).mono ?_
  rintro db₁ held₁ ⟨hdb₁, rfl⟩
  refine LockWp.bind (((readOnly_readptr _).lockWp _).mono ?_)
  rintro freeptr held₂ ⟨-, rfl⟩
  refine LockWp.bind ((lockWp_writeidx _ _ _ _ _ _ ⟨hdb₁.1.trans hdb.1, hdb₁.2.1.trans hdb.2⟩
    (not_appendable_needed (by decide) _)).mono ?_)
  rintro db₂ held₃ ⟨hdb₂, rfl⟩
  refine LockWp.bind ((lockWp_writeptr _ _ _).mono ?_)
  rintro _ held₄ rfl
  refine LockWp.bind ((lockWp_writeptr _ _ _).mono ?_)
  rintro _ held₅ rfl
  refine LockWp.bind (lockWp_unlock .free trivial .wrlck _ (chainLocks_free h _) ?_)
  exact LockWp.bind (LockWp.errDumpIf ⟨hdb₁.trans hdb₂, rfl⟩)

theorem lockWp_findfree (fuel : ℕ) (db : DB) (keylen datlen h : ℕ) :
    LockWp (dbFindfree fuel db keylen datlen) (chainLocks h .wrlck)
      fun v => Keeps db (chainLocks h .wrlck) v.1 := by
  refine LockWp.bind (lockWp_lock .free trivial .wrlck _ (rank_chainLocks rfl) ?_)
  refine LockWp.bind (LockWp.errDumpIf (LockWp.bind (((readOnly_readptr _).lockWp _).mono ?_)))
  rintro offset held₁ ⟨-, rfl⟩
  refine LockWp.bind (((readOnly_findfreeLoop _ _ _ _ _ _).lockWp _).mono ?_)
  rintro ⟨db₁, offset₁, save⟩ held₂ ⟨hdb₁, rfl⟩
  refine LockWp.bind (LockWp.mono (q := fun _ held' => held' =
    Function.update (chainLocks h .wrlck) .free (some .wrlck)) ?_ ?_)
  · exact LockWp.ite rfl (LockWp.bind ((lockWp_writeptr _ _ _).mono fun _ _ hh => hh))
  · rintro result held₃ rfl
    refine LockWp.bind (lockWp_unlock .free trivial .wrlck _ (chainLocks_free h _) ?_)
    exact LockWp.bind (LockWp.errDumpIf ⟨hdb₁, rfl⟩)

theorem dbHash_lt {db : DB} (hdb : db.Opened) (key : List Byte) : dbHash db key < NHASH_DEF := by
  rw [dbHash, hdb.1]
  exact Nat.mod_lt _ (by decide)

/-- The find function returns with exactly its chain locked. -/
theorem lockWp_findAndLock (fuel : ℕ) (db : DB) (key : List Byte) (writelock : Bool)
    (hdb : db.Opened) :
    LockWp (dbFindAndLock fuel db key writelock) noLocks fun v held =>
      v.1.Opened ∧ v.1.chainoff = (Region.chain (dbHash db key)).start ∧
        held = chainLocks (dbHash db key) (if writelock then .wrlck else .rdlck) := by
  have hoff : dbHash db key * PTR_SZ + db.hashoff = (Region.chain (dbHash db key)).start := by
    rw [hdb.2]
    rfl
  have hvalid : (Region.chain (dbHash db key)).Valid := dbHash_lt hdb key
  have hnone : ∀ r', noLocks r' ≠ none → r'.rank < (Region.chain (dbHash db key)).rank :=
    fun r' hr' => absurd rfl hr'
  unfold dbFindAndLock
  simp only [hoff]
  refine LockWp.bind (LockWp.mono (q := fun _ held => held =
    chainLocks (dbHash db key) (if writelock then .wrlck else .rdlck)) ?_ ?_)
  · unfold lockChain
    cases writelock
    · exact LockWp.bind (lockWp_lock _ hvalid _ _ hnone (LockWp.errDumpIf rfl))
    · exact LockWp.bind (lockWp_lock _ hvalid _ _ hnone (LockWp.errDumpIf rfl))
  · rintro _ held rfl
    refine LockWp.bind (((readOnly_readptr _).lockWp _).mono ?_)
    rintro offset held₁ ⟨-, rfl⟩
    refine LockWp.bind (((readOnly_findLoop _ _ _ _).lockWp _).mono ?_)
    rintro ⟨db₁, offset₁⟩ held₂ ⟨hdb₁, rfl⟩
    exact ⟨⟨hdb₁.1.trans hdb.1, hdb₁.2.1.trans hdb.2⟩, hdb₁.2.2, rfl⟩

/-- An operation that returns has an opened handle and holds no lock. -/
def Released {α : Type} (v : DB × α) (held : Held) : Prop := v.1.Opened ∧ held = noLocks

/-- The unlock at the end of every operation on a chain. -/
theorem lockWp_unlockChain {α : Type} (db : DB) (h : ℕ) (hh : h < NHASH_DEF) (type : LockType)
    (hdb : db.Opened) (hoff : db.chainoff = (Region.chain h).start) (msg : String) (a : α) :
    LockWp (do
      let rc ← unLock .idx db.chainoff 1
      errDumpIf (rc < 0) msg
      return (db, a) : Prog sig (DB × α)) (chainLocks h type) Released := by
  simp only [hoff]
  refine LockWp.bind (lockWp_unlock (.chain h) hh type noLocks rfl ?_)
  exact LockWp.bind (LockWp.errDumpIf ⟨hdb, rfl⟩)

theorem lockWp_fetch (fuel : ℕ) (db : DB) (key : List Byte) (hdb : db.Opened) :
    LockWp (dbFetch fuel db key) noLocks Released := by
  refine LockWp.bind ((lockWp_findAndLock fuel db key false hdb).mono ?_)
  rintro ⟨db₁, found⟩ held ⟨hopen, hoff, rfl⟩
  refine LockWp.bind (LockWp.mono
    (q := fun v => Keeps db₁ (chainLocks (dbHash db key) .rdlck) v.1) (LockWp.ite ?_ ?_) ?_)
  · exact ⟨⟨rfl, rfl, rfl⟩, rfl⟩
  · refine LockWp.bind (((readOnly_readdat db₁).lockWp _).mono ?_)
    rintro db₂ held₂ ⟨hdb₂, rfl⟩
    exact ⟨hdb₂, rfl⟩
  · rintro ⟨db₂, ptr⟩ held₂ ⟨hdb₂, rfl⟩
    exact lockWp_unlockChain db₂ _ (dbHash_lt hdb key) _
      ⟨hdb₂.1.trans hopen.1, hdb₂.2.1.trans hopen.2⟩ (hdb₂.2.2.trans hoff) _ ptr

theorem lockWp_delete (fuel : ℕ) (db : DB) (key : List Byte) (hdb : db.Opened) :
    LockWp (dbDelete fuel db key) noLocks Released := by
  refine LockWp.bind ((lockWp_findAndLock fuel db key true hdb).mono ?_)
  rintro ⟨db₁, found⟩ held ⟨hopen, hoff, rfl⟩
  refine LockWp.bind (LockWp.mono
    (q := fun v => Keeps db₁ (chainLocks (dbHash db key) .wrlck) v.1) (LockWp.ite ?_ ?_) ?_)
  · refine LockWp.bind ((lockWp_dodelete db₁ hopen _).mono ?_)
    rintro db₂ held₂ ⟨hdb₂, rfl⟩
    exact ⟨hdb₂, rfl⟩
  · exact ⟨⟨rfl, rfl, rfl⟩, rfl⟩
  · rintro ⟨db₂, rc⟩ held₂ ⟨hdb₂, rfl⟩
    exact lockWp_unlockChain db₂ _ (dbHash_lt hdb key) _
      ⟨hdb₂.1.trans hopen.1, hdb₂.2.1.trans hopen.2⟩ (hdb₂.2.2.trans hoff) _ rc

/-- Writing data and index record and linking the record, as all the store
paths that make a record do. -/
theorem lockWp_writeRecord (db : DB) (key data : List Byte) (off ptr : ℤ) (idxoff : DB → ℤ)
    (whence : Whence) (count : DB → DB) (hcount : ∀ db' : DB, db'.SameChain (count db'))
    (hdb : db.Opened) (h : ℕ) :
    LockWp (do
      let db ← dbWritedat db data off whence
      let db ← dbWriteidx db key (idxoff db) whence ptr
      dbWriteptr db.chainoff db.idxoff
      return (count db, 0) : Prog sig (DB × ℤ)) (chainLocks h .wrlck)
      fun v => Keeps db (chainLocks h .wrlck) v.1 := by
  refine LockWp.bind ((lockWp_writedat _ _ _ _ _ fun _ => ⟨h, rfl⟩).mono ?_)
  rintro db₁ held₁ ⟨hdb₁, rfl⟩
  refine LockWp.bind ((lockWp_writeidx _ _ _ _ _ _
    ⟨hdb₁.1.trans hdb.1, hdb₁.2.1.trans hdb.2⟩ fun _ => ⟨h, rfl⟩).mono ?_)
  rintro db₂ held₂ ⟨hdb₂, rfl⟩
  refine LockWp.bind ((lockWp_writeptr _ _ _).mono ?_)
  rintro _ held₃ rfl
  exact ⟨(hdb₁.trans hdb₂).trans (hcount db₂), rfl⟩

theorem lockWp_storeNew (fuel : ℕ) (db : DB) (key data : List Byte) (flag : ℤ)
    (hdb : db.Opened) (h : ℕ) :
    LockWp (storeNew fuel db key data flag) (chainLocks h .wrlck)
      fun v => Keeps db (chainLocks h .wrlck) v.1 := by
  refine LockWp.ite ⟨⟨rfl, rfl, rfl⟩, rfl⟩ (LockWp.bind (((readOnly_readptr _).lockWp _).mono ?_))
  rintro ptrval held₁ ⟨-, rfl⟩
  refine LockWp.bind ((lockWp_findfree _ _ _ _ h).mono ?_)
  rintro ⟨db₁, free⟩ held₂ ⟨hdb₁, rfl⟩
  have hopen : db₁.Opened := ⟨hdb₁.1.trans hdb.1, hdb₁.2.1.trans hdb.2⟩
  have hkeeps : ∀ (v : DB × ℤ) held, Keeps db₁ (chainLocks h .wrlck) v.1 held →
      Keeps db (chainLocks h .wrlck) v.1 held := fun v held hv => ⟨hdb₁.trans hv.1, hv.2⟩
  refine LockWp.ite ?_ ?_
  · exact (lockWp_writeRecord db₁ key data 0 ptrval (fun _ => 0) .seekEnd
      (fun db => { db with cnt.stor1 := db.cnt.stor1 + 1 }) (fun _ => ⟨rfl, rfl, rfl⟩)
      hopen h).mono hkeeps
  · exact (lockWp_writeRecord db₁ key data db₁.datoff ptrval (fun db => db.idxoff) .seekSet
      (fun db => { db with cnt.stor2 := db.cnt.stor2 + 1 }) (fun _ => ⟨rfl, rfl, rfl⟩)
      hopen h).mono hkeeps

theorem lockWp_storeFound (db : DB) (key data : List Byte) (flag : ℤ)
    (hdb : db.Opened) (h : ℕ) :
    LockWp (storeFound db key data flag) (chainLocks h .wrlck)
      fun v => Keeps db (chainLocks h .wrlck) v.1 := by
  refine LockWp.ite ⟨⟨rfl, rfl, rfl⟩, rfl⟩ (LockWp.ite ?_ ?_)
  · refine LockWp.bind ((lockWp_dodelete db hdb h).mono ?_)
    rintro db₁ held₁ ⟨hdb₁, rfl⟩
    refine LockWp.bind (((readOnly_readptr _).lockWp _).mono ?_)
    rintro ptrval held₂ ⟨-, rfl⟩
    refine (lockWp_writeRecord db₁ key data 0 ptrval (fun _ => 0) .seekEnd
      (fun db => { db with cnt.stor3 := db.cnt.stor3 + 1 }) (fun _ => ⟨rfl, rfl, rfl⟩)
      ⟨hdb₁.1.trans hdb.1, hdb₁.2.1.trans hdb.2⟩ h).mono ?_
    rintro v held₃ ⟨hv, rfl⟩
    exact ⟨hdb₁.trans hv, rfl⟩
  · refine LockWp.bind ((lockWp_writedat _ _ _ _ _ (not_appendable_needed (by decide) _)).mono ?_)
    rintro db₁ held₁ ⟨hdb₁, rfl⟩
    exact ⟨hdb₁, rfl⟩

theorem lockWp_store (fuel : ℕ) (db : DB) (key data : List Byte) (flag : ℤ)
    (hdb : db.Opened) : LockWp (dbStore fuel db key data flag) noLocks Released := by
  refine LockWp.ite ⟨hdb, rfl⟩ (LockWp.bind (LockWp.errDumpIf (LockWp.bind ?_)))
  refine (lockWp_findAndLock fuel db key true hdb).mono ?_
  rintro ⟨db₁, found⟩ held ⟨hopen, hoff, rfl⟩
  refine LockWp.bind (LockWp.mono
    (q := fun v => Keeps db₁ (chainLocks (dbHash db key) .wrlck) v.1) (LockWp.ite ?_ ?_) ?_)
  · exact lockWp_storeNew fuel db₁ key data flag hopen _
  · exact lockWp_storeFound db₁ key data flag hopen _
  · rintro ⟨db₂, rc⟩ held₂ ⟨hdb₂, rfl⟩
    exact lockWp_unlockChain db₂ _ (dbHash_lt hdb key) _
      ⟨hdb₂.1.trans hopen.1, hdb₂.2.1.trans hopen.2⟩ (hdb₂.2.2.trans hoff) _ rc

theorem lockWp_nextrec (fuel : ℕ) (db : DB) (hdb : db.Opened) :
    LockWp (dbNextrec fuel db) noLocks Released := by
  refine LockWp.bind (lockWp_lock .free trivial .rdlck _ (fun r' hr' => absurd rfl hr') ?_)
  refine LockWp.bind (LockWp.errDumpIf (LockWp.bind (((readOnly_nextrecLoop _ _).lockWp _).mono ?_)))
  rintro ⟨db₁, more⟩ held ⟨hdb₁, rfl⟩
  refine LockWp.bind (LockWp.mono (q := fun v => Keeps db₁
    (Function.update noLocks .free (some .rdlck)) v.1) (LockWp.ite ?_ ⟨⟨rfl, rfl, rfl⟩, rfl⟩) ?_)
  · refine LockWp.bind (((readOnly_readdat _).lockWp _).mono ?_)
    rintro db₂ held₂ ⟨hdb₂, rfl⟩
    exact ⟨hdb₂, rfl⟩
  · rintro ⟨db₂, ptr⟩ held₂ ⟨hdb₂, rfl⟩
    refine LockWp.bind (lockWp_unlock .free trivial .rdlck _ rfl (LockWp.bind ?_))
    exact LockWp.errDumpIf ⟨⟨(hdb₁.trans hdb₂).1.trans hdb.1,
      (hdb₁.trans hdb₂).2.1.trans hdb.2⟩, rfl⟩

theorem lockWp_keyOpBody (fuel : ℕ) (o : KeyOp) (db : DB) (hdb : db.Opened) :
    LockWp (keyOpBody fuel o db) noLocks Released := by
  cases o with
  | fetch key => exact LockWp.bind ((lockWp_fetch fuel db key hdb).mono fun _ _ h => h)
  | store key data flag =>
    exact LockWp.bind ((lockWp_store fuel db key data flag hdb).mono fun _ _ h => h)
  | delete key => exact LockWp.bind ((lockWp_delete fuel db key hdb).mono fun _ _ h => h)

theorem lockWp_opBody (fuel : ℕ) (o : Op) (db : DB) (hdb : db.Opened) :
    LockWp (opBody fuel o db) noLocks Released := by
  cases o with
  | keyed o => exact lockWp_keyOpBody fuel o db hdb
  | rewind => exact LockWp.bind (LockWp.bind fun pos => LockWp.bind (LockWp.errDumpIf ⟨hdb, rfl⟩))
  | nextrec => exact LockWp.bind ((lockWp_nextrec fuel db hdb).mono fun _ _ h => h)

variable {P : Type}

/-- Process `p` waits in a lock call for a byte on which `q` holds a
conflicting lock. -/
def BlockedOn (c : DbConfig P) (p q : P) : Prop :=
  q ≠ p ∧ ∃ o fd type start len, ∃ k : ℤ → Prog sig (DB × Res),
    c.thread p = .busy o (.call (.setlkw fd type start len) k) ∧
    ∃ b, InRange start len b ∧ ∃ t, c.shared.locks q fd b = some t ∧ ¬ Compatible type t

/-- What the lock order says of one process that holds `held`. -/
def ThreadLocks (held : Held) : Thread sig Op Res DB → Prop
  | .idle db => db.Opened ∧ held = noLocks
  | .busy _ prog => LockWp prog held Released
  | .dead => held = noLocks

/-- The lock table is regional and every process keeps the lock order. -/
def LockOrder (c : DbConfig P) : Prop :=
  ∃ held : P → Held, Regional c.shared.locks held ∧ ∀ p, ThreadLocks (held p) (c.thread p)

variable [DecidableEq P]

private theorem threads_update {held : P → Held} {thread : P → Thread sig Op Res DB}
    (h : ∀ q, ThreadLocks (held q) (thread q)) (p : P) {held' : Held}
    {t : Thread sig Op Res DB} (hp : ThreadLocks held' t) (q : P) :
    ThreadLocks (Function.update held p held' q) (Function.update thread p t q) := by
  by_cases hq : q = p
  · subst hq
    simpa only [Function.update_self] using hp
  · simpa only [Function.update_of_ne hq] using h q

/-- One call of a process that keeps the lock order. -/
private theorem lockOrder_sys {s s' : Shared P} {held : P → Held} {p : P} {c : Call}
    {k : c.Ret → Prog sig (DB × Res)} {r : c.Ret} {pos pos' : Pos}
    (hreg : Regional s.locks held) (hwp : LockWp (.call c k) (held p) Released)
    (hexec : exec p c s pos r s' pos') :
    ∃ held', Regional s'.locks (Function.update held p held') ∧ LockWp (k r) held' Released := by
  obtain ⟨-, hfile, hlocks⟩ := hexec
  have hsame : s'.locks = s.locks → Regional s'.locks (Function.update held p (held p)) := by
    intro he
    rw [Function.update_eq_self, he]
    exact hreg
  cases c with
  | setlkw fd type start len =>
    obtain ⟨reg, hvalid, rfl, rfl, rfl, -, hk⟩ := hwp
    obtain rfl : (0 : ℤ) = r := congrArg Prod.fst hfile
    exact ⟨_, hlocks ▸ regional_setLocks hreg p reg hvalid (some type), hk⟩
  | unlck fd start len =>
    obtain ⟨reg, hvalid, rfl, rfl, rfl, hk⟩ := hwp
    obtain rfl : (0 : ℤ) = r := congrArg Prod.fst hfile
    exact ⟨_, hlocks ▸ regional_setLocks hreg p reg hvalid none, hk⟩
  | lseek fd off wh => exact ⟨held p, hsame hlocks, hwp r⟩
  | read fd n => exact ⟨held p, hsame hlocks, hwp r⟩
  | write fd bs => exact ⟨held p, hsame hlocks, hwp r⟩
  | fstat fd => exact ⟨held p, hsame hlocks, hwp r⟩

theorem lockOrder_step {fuel : ℕ} {allowed : P → Op → Prop} {c c' : DbConfig P}
    (hs : Step (machine fuel allowed) c c') (hc : LockOrder c) : LockOrder c' := by
  obtain ⟨held, hreg, hall⟩ := hc
  cases hs with
  | @call p o db ht ha =>
    have hp := hall p
    rw [ht] at hp
    refine ⟨Function.update held p noLocks, ?_, ?_⟩
    · rw [← hp.2, Function.update_eq_self]
      exact hreg
    · exact threads_update hall p (lockWp_opBody fuel o db hp.1)
  | @sys p o cl k r s pos ht he =>
    have hp := hall p
    rw [ht] at hp
    obtain ⟨held', hreg', hwp⟩ := lockOrder_sys hreg hp he
    exact ⟨_, hreg', threads_update hall p hwp⟩
  | @ret p o db r ht =>
    have hp := hall p
    rw [ht] at hp
    refine ⟨Function.update held p noLocks, ?_, threads_update hall p ⟨hp.1, rfl⟩⟩
    rw [← hp.2, Function.update_eq_self]
    exact hreg
  | @exit p o msg ht =>
    refine ⟨Function.update held p noLocks, ?_, threads_update hall p rfl⟩
    intro q
    funext fd b
    change (if q = p then none else c.shared.locks q fd b) = _
    by_cases hq : q = p
    · rw [if_pos hq, hq, Function.update_self, tableOf_noLocks]
    · rw [if_neg hq, Function.update_of_ne hq, hreg q]

theorem lockOrder_reach {fuel : ℕ} {allowed : P → Op → Prop} {files : Files} {c : DbConfig P}
    (hr : Reach (machine fuel allowed) (opened files) c) : LockOrder c := by
  induction hr with
  | refl =>
    refine ⟨fun _ => noLocks, fun p => tableOf_noLocks.symm, fun p => ⟨⟨rfl, rfl⟩, rfl⟩⟩
  | tail _ hs ih => exact lockOrder_step hs ih

omit [DecidableEq P] in
/-- A process that waits for a region holds only regions of a lower rank. -/
theorem LockOrder.blocked_rank {c : DbConfig P} {held : P → Held}
    (hreg : Regional c.shared.locks held) (hall : ∀ p, ThreadLocks (held p) (c.thread p))
    {p q : P} (hb : BlockedOn c p q) :
    ∃ r : Region, held q r ≠ none ∧ ∀ r', held p r' ≠ none → r'.rank < r.rank := by
  obtain ⟨-, o, fd, type, start, len, k, ht, b, hb, t, hlock, -⟩ := hb
  have hp := hall p
  rw [ht] at hp
  obtain ⟨r, hvalid, rfl, rfl, rfl, hrank, -⟩ := hp
  refine ⟨r, ?_, hrank⟩
  rw [hreg q, tableOf, (Region.ofByte_eq_some r hvalid _ b).mpr ⟨rfl, hb⟩] at hlock
  simp only [Option.bind_some] at hlock
  rw [hlock]
  exact Option.some_ne_none t

omit [DecidableEq P] in
/-- A process that others wait for, and that itself waits, holds a chain and
waits for a region of the second rank; so nobody waits for it in turn. -/
theorem LockOrder.no_three_blocked {c : DbConfig P} (h : LockOrder c) {p q r s : P}
    (hpq : BlockedOn c p q) (hqr : BlockedOn c q r) (hrs : BlockedOn c r s) : False := by
  obtain ⟨held, hreg, hall⟩ := h
  obtain ⟨a, ha, -⟩ := LockOrder.blocked_rank hreg hall hpq
  obtain ⟨b, hb, hb'⟩ := LockOrder.blocked_rank hreg hall hqr
  obtain ⟨d, hd, hd'⟩ := LockOrder.blocked_rank hreg hall hrs
  have hab := hb' a ha
  have hbd := hd' b hb
  have hle : d.rank ≤ 1 := by cases d <;> simp [Region.rank]
  omega

omit [DecidableEq P] in
private theorem cycle_next {R : P → P → Prop} {p : P} (h : Relation.TransGen R p p) :
    ∃ q, R p q ∧ Relation.TransGen R q q := by
  obtain ⟨q, hpq, hqp⟩ := Relation.TransGen.head'_iff.mp h
  exact ⟨q, hpq, Relation.TransGen.tail' hqp hpq⟩

omit [DecidableEq P] in
/-- A process that is in no operation holds no lock. -/
theorem LockOrder.unlocked {c : DbConfig P} (h : LockOrder c) {p : P}
    (ht : ∀ o prog, c.thread p ≠ .busy o prog) (fd : Fd) (b : ℕ) :
    c.shared.locks p fd b = none := by
  obtain ⟨held, hreg, hall⟩ := h
  have hp := hall p
  have hno : held p = noLocks := by
    cases hthread : c.thread p with
    | idle db =>
      rw [hthread] at hp
      exact hp.2
    | busy o prog => exact absurd hthread (ht o prog)
    | dead =>
      rw [hthread] at hp
      exact hp
  rw [hreg p, hno, tableOf_noLocks]

omit [DecidableEq P] in
theorem LockOrder.opened {c : DbConfig P} (h : LockOrder c) {p : P} {db : DB}
    (ht : c.thread p = .idle db) : db.Opened := by
  obtain ⟨held, -, hall⟩ := h
  have hp := hall p
  rw [ht] at hp
  exact hp.1

/-- No interleaving of any operations, on files with any contents, reaches a
cycle of processes that wait for each other, and a process whose operations
have all returned holds no lock. -/
theorem locks_deadlock_free (fuel : ℕ) (files : Files) (c : DbConfig P)
    (hr : Reach (machine fuel fun _ _ => True) (opened files) c) :
    (∀ p, ¬ Relation.TransGen (BlockedOn c) p p) ∧
      ∀ p db, c.thread p = .idle db → ∀ fd b, c.shared.locks p fd b = none := by
  have horder := lockOrder_reach hr
  constructor
  · intro p hcycle
    obtain ⟨q, hpq, hq⟩ := cycle_next hcycle
    obtain ⟨r, hqr, hr⟩ := cycle_next hq
    obtain ⟨s, hrs, -⟩ := cycle_next hr
    exact horder.no_three_blocked hpq hqr hrs
  · exact fun p db ht => horder.unlocked fun o prog hb => nomatch ht.symm.trans hb

/-- One process waits for the chain that the other has locked. -/
theorem locks_deadlock_free_waiting :
    ∃ c : DbConfig Bool, Reach (machine 100 fun _ _ => True) (opened createdFiles) c ∧
      BlockedOn c false true ∧ ¬ Relation.TransGen (BlockedOn c) false false := by
  let M := machine 100 fun (_ : Bool) _ => True
  let o := Op.keyed (.delete [97])
  obtain ⟨start, k, hbody⟩ : ∃ start k, opBody 100 o openedHandle =
      .call (.setlkw .idx .wrlck start 1) k := ⟨_, _, rfl⟩
  obtain ⟨c₁, hcall, hshared₁, hthread₁⟩ : ∃ c₁, Step M (opened createdFiles) c₁ ∧
      c₁.shared = ⟨createdFiles, fun _ _ _ => none⟩ ∧
      c₁.thread = Function.update (opened createdFiles).thread true
        (.busy o (opBody 100 o openedHandle)) := ⟨_, Step.call rfl trivial, rfl, rfl⟩
  have hbusy : c₁.thread true = .busy o (.call (.setlkw .idx .wrlck start 1) k) := by
    rw [hthread₁, Function.update_self, hbody]
  obtain ⟨c₂, hlock, hlocks₂, hthread₂⟩ : ∃ c₂, Step M c₁ c₂ ∧
      c₂.shared.locks = setLocks (fun _ _ _ => none) true .idx start 1 (some .wrlck) ∧
      c₂.thread = Function.update c₁.thread true (.busy o (k (0 : ℤ))) := by
    refine ⟨_, Step.sys (s := ⟨c₁.shared.files,
      setLocks c₁.shared.locks true .idx start 1 (some .wrlck)⟩) hbusy ⟨?_, rfl, rfl⟩, ?_, rfl⟩
    · rw [hshared₁]
      exact fun _ _ _ _ _ ht => nomatch ht
    · rw [hshared₁]
  obtain ⟨c₃, hother, hlocks₃, hthread₃⟩ : ∃ c₃, Step M c₂ c₃ ∧ c₃.shared = c₂.shared ∧
      c₃.thread false = .busy o (opBody 100 o openedHandle) := by
    refine ⟨_, Step.call (p := false) (o := o) (h := openedHandle) ?_ trivial, rfl,
      Function.update_self false (Thread.busy o (M.body o openedHandle)) c₂.thread⟩
    rw [hthread₂, hthread₁]
    rfl
  have hreach : Reach M (opened createdFiles) c₃ :=
    ((Relation.ReflTransGen.single hcall).tail hlock).tail hother
  refine ⟨c₃, hreach, ?_, (locks_deadlock_free _ _ _ hreach).1 false⟩
  have hin : InRange start 1 start := ⟨le_rfl, Or.inr (Nat.lt_succ_self _)⟩
  refine ⟨by decide, o, .idx, .wrlck, start, 1, k, hthread₃.trans (congrArg _ hbody), start, hin,
    .wrlck, ?_, fun h => nomatch h.1⟩
  rw [hlocks₃, hlocks₂]
  exact if_pos ⟨rfl, rfl, hin⟩

end Apue.Db
