import Apue.DbLists
import Apue.DbSteps

/-!
The functions that read, run alone on the text of a store. db_fetch gives what
the chain of the key holds, also where the chain has run into the free list, and
a scan gives the records that have a key, in the order of the index file. These
are the same records where every key is on its chain, as in a database at rest.
-/
namespace Apue.Db

open Programs Decimal ByteFiles Pointers

variable {fuel : ℕ} {st st' : Store} {key : List Byte} {l : List ℕ} {o : ℕ}

/-- The text of the store. -/
def Store.known (st : Store) : Knowledge := fun fd off bytes => Contains (st.files.get fd) off bytes

theorem Store.Ok.hasRec (h : st.Ok) (ho : o ∈ st.offs) :
    HasRec st.known o (st.ptr o) (st.body o) where
  head := h.contains_head ho
  text := h.contains_text ho
  ptr_le := h.ptr_le o
  ok := h.body_ok o ho
  pos := by
    have := (h.off_bounds ho).1
    omega

/-- The data record of the index record `o` is there, with the length it says. -/
structure Store.HasData (st : Store) (o : ℕ) : Prop where
  mem : (st.body o).datoff ∈ st.doffs
  len : (st.body o).datlen = (st.dat (st.body o).datoff).length + 1

theorem runs_read {fd : Fd} {n : ℕ} {files : Files} {pos : Pos} {bytes : List Byte}
    (h : readAt (files.get fd) (pos.get fd) n = bytes) :
    Runs (read fd n) (files, pos) [] (.ok bytes)
      (files, pos.set fd (pos.get fd + bytes.length)) := by
  refine Runs.call rfl ?_
  simp only [fileCall, h]

theorem runs_seekSet {fd : Fd} {off : ℕ} (files : Files) (pos : Pos) :
    Runs (lseek fd off .seekSet) (files, pos) [] (.ok (off : ℤ)) (files, pos.set fd off) := by
  refine Runs.call rfl ?_
  simp only [fileCall, seekBase, Int.zero_add, if_neg (not_lt.mpr (Int.natCast_nonneg _)),
    Int.toNat_natCast]

/-- Reading the data of a record leaves the offset in the index file alone. -/
theorem Store.Ok.runs_readdat (h : st.Ok) (hd : st.HasData o) {db : DB}
    (hoff : db.datoff = (st.body o).datoff) (hlen : db.datlen = (st.body o).datlen) (pos : Pos) :
    ∃ dat, Runs (dbReaddat db) (st.files, pos) []
      (.ok { db with datbuf := st.dat (st.body o).datoff }) (st.files, { pos with dat := dat }) := by
  have hlen' := hlen.trans hd.len
  have hread : readAt (st.files.get .dat) ((pos.set .dat (st.body o).datoff).get .dat) db.datlen =
      st.dat (st.body o).datoff ++ [NEWLINE] :=
    (h.contains_dat hd.mem).readAt_eq (by simp [hlen'])
  refine ⟨(st.body o).datoff + (st.dat (st.body o).datoff ++ [NEWLINE]).length, ?_⟩
  unfold dbReaddat
  rw [hoff]
  refine (runs_seekSet _ _).next ((Runs.check (by omega) _).next ((runs_read hread).next ?_))
  refine (Runs.check (by simp [hlen']) _).next ((Runs.check (by simp) _).next ?_)
  rw [List.dropLast_concat, cstr_eq_self (h.dat_ok _ hd.mem), ← hoff]
  exact Runs.ret _ _

/-- A pointer cell, read alone. -/
theorem goes_readptr (h : st.Ok) {c : ℕ} (hc : st.IsCell c) (pos : Pos) :
    Goes (dbReadptr c) (st.files, pos) [] (.ok (st.ptr c : ℤ)) st.files := by
  have hread : ReadWp st.known (dbReadptr c) pos fun v _ => v = st.ptr c :=
    readWp_readptr (h.ptr_le c) (h.contains_ptr hc) fun _ => rfl
  obtain ⟨v, pos', hruns, rfl⟩ := hread.runs fun _ _ _ hk => hk
  exact ⟨pos', hruns⟩

/-!
The functions that search use the index buffer only.
-/

section Datbuf

variable {α β : Type} {post : β → Prop}

theorem returns_check {cond : Prop} [Decidable cond] {msg : String} {f : Unit → Prog sig β}
    (h : (f ()).Returns post) : (errDumpIf cond msg >>= f).Returns post := by
  unfold errDumpIf
  split
  · trivial
  · exact h

theorem returns_call {c : Call} {f : c.Ret → Prog sig β} (h : ∀ r, (f r).Returns post) :
    (Prog.call c .ret >>= f : Prog sig β).Returns post := h

theorem returns_parseIdx (db : DB) (buf : List Byte) :
    (parseIdx db buf).Returns fun v => v.datbuf = db.datbuf := by
  unfold parseIdx
  split
  · trivial
  · split
    · trivial
    · exact returns_check (returns_check (returns_check rfl))

theorem returns_readidx (db : DB) (offset : ℤ) :
    (dbReadidx db offset).Returns fun v => v.1.datbuf = db.datbuf := by
  refine returns_call fun pos => returns_check (returns_call fun head => ?_)
  simp only
  split
  · exact rfl
  · refine returns_check (returns_check (returns_call fun buf => ?_))
    exact returns_check (returns_check ((returns_parseIdx _ _).bind fun _ h => h))

theorem returns_findLoop (bound : ℕ) (db : DB) (key : List Byte) (offset : ℤ) :
    (findLoop bound db key offset).Returns fun v => v.1.datbuf = db.datbuf := by
  induction bound generalizing db offset with
  | zero => trivial
  | succ bound ih =>
    unfold findLoop
    split
    · refine (returns_readidx db offset).bind fun v hv => ?_
      simp only
      split
      · exact hv
      · rw [← hv]
        exact ih { v.1 with ptroff := offset } v.2
    · exact rfl

theorem returns_findfreeLoop (bound : ℕ) (db : DB) (keylen datlen : ℕ) (save offset : ℤ) :
    (findfreeLoop bound db keylen datlen save offset).Returns fun v => v.1.datbuf = db.datbuf := by
  induction bound generalizing db save offset with
  | zero => trivial
  | succ bound ih =>
    unfold findfreeLoop
    split
    · refine (returns_readidx db offset).bind fun v hv => ?_
      simp only
      split
      · exact hv
      · rw [← hv]
        exact ih v.1 offset v.2
    · exact rfl

end Datbuf

section Search

/-- The chain of the key leads through the records `l`, at most one of which has
the key. -/
structure Store.Searched (st : Store) (key : List Byte) (l : List ℕ) : Prop where
  linked : Linked st.ptr (cell (hashOf key)) l
  nodup : l.Nodup
  mem : ∀ o ∈ l, o ∈ st.offs
  uniq : ∀ o ∈ l, ∀ a ∈ l, (st.body o).key = key → (st.body a).key = key → o = a
  data : ∀ o ∈ l, (st.body o).key = key → st.HasData o

theorem Store.lookup_eq_none (h : ∀ o ∈ l, (st.body o).key ≠ key) : st.lookup l key = none := by
  induction l with
  | nil => rfl
  | cons a l ih =>
    rw [Store.lookup_cons, if_neg (h a List.mem_cons_self),
      ih fun o ho => h o (List.mem_cons_of_mem _ ho)]

/-- Only the record with the key counts. -/
theorem Store.lookup_of_mem (ho : o ∈ l) (hkey : (st.body o).key = key)
    (huniq : ∀ a ∈ l, (st.body a).key = key → a = o) :
    st.lookup l key = some (st.dat (st.body o).datoff) := by
  induction l with
  | nil => exact absurd ho List.not_mem_nil
  | cons a l ih =>
    rw [Store.lookup_cons]
    by_cases ha : (st.body a).key = key
    · rw [if_pos ha, huniq a List.mem_cons_self ha]
    · rw [if_neg ha]
      refine ih ?_ fun b hb => huniq b (List.mem_cons_of_mem _ hb)
      exact (List.mem_cons.mp ho).resolve_left fun he => ha (he ▸ hkey)

theorem Store.Searched.found (h : st.Searched key l) (ho : o ∈ l) (hkey : (st.body o).key = key) :
    st.lookup l key = some (st.dat (st.body o).datoff) :=
  Store.lookup_of_mem ho hkey fun a ha hk => h.uniq a ha o ho hk hkey

/-- An update that spares the chain does not change what is found on it. -/
theorem Store.Searched.frame (h : st.Searched key l)
    (hptr : ∀ c ∈ cell (hashOf key) :: l, st'.ptr c = st.ptr c)
    (hbody : ∀ o ∈ l, st'.body o = st.body o) (hoffs : ∀ o ∈ l, o ∈ st'.offs)
    (hdata : ∀ o ∈ l, (st.body o).key = key → (st.body o).datoff ∈ st'.doffs ∧
      st'.dat (st.body o).datoff = st.dat (st.body o).datoff) :
    st'.Searched key l ∧ st'.lookup l key = st.lookup l key := by
  have hs : st'.Searched key l := {
    linked := linked_congr (hptr _ List.mem_cons_self)
      (fun a ha => hptr a (List.mem_cons_of_mem _ ha)) h.linked
    nodup := h.nodup
    mem := hoffs
    uniq := fun o ho a ha hko hka =>
      h.uniq o ho a ha (by rwa [hbody o ho] at hko) (by rwa [hbody a ha] at hka)
    data := fun o ho hkey => by
      rw [hbody o ho] at hkey
      obtain ⟨hmem, hdat⟩ := hdata o ho hkey
      exact ⟨by rwa [hbody o ho], by rw [hbody o ho, hdat]; exact (h.data o ho hkey).len⟩ }
  refine ⟨hs, ?_⟩
  by_cases hex : ∃ o ∈ l, (st.body o).key = key
  · obtain ⟨o, ho, hkey⟩ := hex
    rw [hs.found ho (by rwa [hbody o ho]), h.found ho hkey, hbody o ho, (hdata o ho hkey).2]
  · have hno : ∀ o ∈ l, (st.body o).key ≠ key := fun o ho hkey => hex ⟨o, ho, hkey⟩
    rw [Store.lookup_eq_none hno, Store.lookup_eq_none fun o ho => by
      rw [hbody o ho]
      exact hno o ho]

/-- What _db_find_and_lock leaves in the handle. -/
structure DB.At (db : DB) (key : List Byte) : Prop where
  opened : db.Opened
  chainoff : db.chainoff = cell (hashOf key)

/-- The record `o` was found behind the records `pre` of its chain. -/
structure DB.Found (db : DB) (st : Store) (key : List Byte) (pre : List ℕ) (o : ℕ) : Prop where
  match_key : (st.body o).key = key
  located : db.Located o (st.ptr o) (st.body o)
  ptroff : db.ptroff = lastCell (cell (hashOf key)) pre

variable (hfuel : PTR_MAX < fuel) (hok : st.Ok)
include hfuel hok

theorem goes_findAndLock {db : DB} (hdb : db.Opened)
    (hlinked : Linked st.ptr (cell (hashOf key)) l) (hnodup : l.Nodup) (hmem : ∀ o ∈ l, o ∈ st.offs)
    (writelock : Bool) (pos : Pos) : ∃ db' rc,
      Goes (dbFindAndLock fuel db key writelock) (st.files, pos) [] (.ok (db', rc)) st.files ∧
      db'.At key ∧ db'.datbuf = db.datbuf ∧
      ((rc = -1 ∧ ∀ o ∈ l, (st.body o).key ≠ key) ∨
        (rc = 0 ∧ ∃ pre o rest, l = pre ++ o :: rest ∧ db'.Found st key pre o)) := by
  have hlen := hok.length_linked_le hlinked hnodup hmem
  have hcell : dbHash db key * PTR_SZ + db.hashoff = cell (hashOf key) := by
    rw [dbHash_eq hdb, hdb.2]
    rfl
  obtain ⟨db₁, hdb₁⟩ : ∃ db₁ : DB, db₁ = { db with
    chainoff := cell (hashOf key), ptroff := (cell (hashOf key) : ℕ) } := ⟨_, rfl⟩
  have hat : db₁.At key := by
    rw [hdb₁]
    exact ⟨hdb, rfl⟩
  have hptroff : db₁.ptroff = cell (hashOf key) := by rw [hdb₁]
  have hfind : ReadWp st.known (dbReadptr (cell (hashOf key)) >>= findLoop fuel db₁ key) pos
      fun v _ => db₁.SameChain v.1 ∧ ((v.2 = 0 ∧ ∀ o ∈ l, (st.body o).key ≠ key) ∨
        (v.2 ≠ 0 ∧ ∃ pre o rest, l = pre ++ o :: rest ∧ v.1.Found st key pre o)) := by
    refine ReadWp.bind (readWp_readptr (hok.ptr_le _)
      (hok.contains_ptr (Or.inl (cell_mem_heads (hashOf_lt key)))) fun pos₁ => ?_)
    refine readWp_findLoop st.body key (by omega) hlinked (fun o ho => hok.hasRec (hmem o ho))
      hptroff ?_ ?_
    · intro pre o rest db' pos' hl hkey hsame hloc hoff
      have ho : o ∈ st.offs := hmem o (hl ▸ List.mem_append_right _ List.mem_cons_self)
      have hge := (hok.off_bounds ho).1
      exact ⟨hsame, Or.inr ⟨by simp only; omega, pre, o, rest, hl, hkey, hloc, hoff⟩⟩
    · intro db' pos' hmiss hsame
      exact ⟨hsame, Or.inl ⟨rfl, hmiss⟩⟩
  obtain ⟨⟨db', off⟩, pos', hruns, hsame, hcases⟩ := hfind.runs fun _ _ _ hk => hk
  have hbuf : db'.datbuf = db.datbuf := by
    have hret := (Prog.returns_true (dbReadptr (cell (hashOf key)))).bind
      fun offset _ => returns_findLoop fuel db₁ key offset
    exact (hret.of_run hruns.run).trans (by rw [hdb₁])
  have hlock : Runs (lockChain db₁ writelock) (st.files, pos) [] (.ok ()) (st.files, pos) := by
    cases writelock with
    | true => exact (Runs.lock _ _ _ _ _).next (Runs.check (by decide) _)
    | false => exact (Runs.lock _ _ _ _ _).next (Runs.check (by decide) _)
  refine ⟨db', if off = 0 then -1 else 0, ⟨pos', ?_⟩,
    ⟨hat.opened.of_sameChain hsame, hsame.2.2.trans hat.chainoff⟩, hbuf, ?_⟩
  · unfold dbFindAndLock
    simp only [hcell, ← hdb₁]
    refine hlock.next ?_
    rw [← Prog.bind_assoc]
    exact hruns.next (Runs.ret _ _)
  · rcases hcases with ⟨hoff, hmiss⟩ | ⟨hoff, hfound⟩
    · exact Or.inl ⟨if_pos hoff, hmiss⟩
    · exact Or.inr ⟨if_neg hoff, hfound⟩

/-- db_fetch gives what the chain of the key holds, in the buffer of the handle. -/
theorem goes_fetch {db : DB} (hdb : db.Opened) (h : st.Searched key l) (pos : Pos) :
    ∃ db', db'.Opened ∧ (∀ data ∈ st.lookup l key, db'.datbuf = data) ∧
      Goes (dbFetch fuel db key) (st.files, pos) [] (.ok (db', st.lookup l key)) st.files := by
  obtain ⟨db₁, rc, hfind, hat, -, hcases⟩ :=
    goes_findAndLock hfuel hok hdb h.linked h.nodup h.mem false pos
  unfold dbFetch
  rcases hcases with ⟨rfl, hmiss⟩ | ⟨rfl, pre, o, rest, hl, hfound⟩
  · rw [Store.lookup_eq_none hmiss]
    refine ⟨{ db₁ with cnt.fetcherr := db₁.cnt.fetcherr + 1 }, hat.opened, nofun,
      hfind.next fun pos₁ => ?_⟩
    simp only
    rw [if_pos (by decide)]
    refine (Goes.ret _ _ _).next fun pos₂ => (Goes.unlock _ _ _ _ _).next fun pos₃ => ?_
    exact (Goes.check (by decide) _ _).next fun pos₄ => Goes.ret _ _ _
  · have ho : o ∈ l := hl ▸ List.mem_append_right _ List.mem_cons_self
    rw [h.found ho hfound.match_key]
    refine ⟨{ db₁ with
      datbuf := st.dat (st.body o).datoff
      cnt.fetchok := db₁.cnt.fetchok + 1 }, hat.opened, fun _ hd => Option.some.inj hd,
      hfind.next fun pos₁ => ?_⟩
    obtain ⟨dat, hdat⟩ := hok.runs_readdat (h.data o ho hfound.match_key)
      hfound.located.datoff hfound.located.datlen pos₁
    simp only
    rw [if_neg (by decide), Prog.bind_assoc]
    refine Goes.next ⟨_, hdat⟩ fun pos₂ => (Goes.ret _ _ _).next fun pos₃ => ?_
    refine (Goes.unlock _ _ _ _ _).next fun pos₄ => ?_
    exact (Goes.check (by decide) _ _).next fun pos₅ => Goes.ret _ _ _

end Search

section Scan

/-- The index file goes on with the records `l` from the offset `x`. -/
def Store.Ahead (st : Store) (x : ℕ) (l : List ℕ) : Prop :=
  ∃ pre, st.offs = pre ++ l ∧ x = endOf (fun o => (st.recBlock o).length) 967 pre

theorem Store.ahead_first (st : Store) : st.Ahead 967 st.offs := ⟨[], rfl, rfl⟩

theorem Store.Ok.ahead_nil (h : st.Ok) {x : ℕ} (hx : st.Ahead x []) : x = st.idxFile.length := by
  obtain ⟨pre, hoffs, rfl⟩ := hx
  rw [h.length_idxFile, hoffs, List.append_nil]

theorem Store.Ok.ahead_cons (h : st.Ok) {x : ℕ} (hx : st.Ahead x (o :: l)) :
    x = o ∧ o ∈ st.offs ∧ st.Ahead (o + (PTR_SZ + IDXLEN_SZ + (st.body o).text.length)) l := by
  obtain ⟨pre, hoffs, hend⟩ := hx
  have ho : o ∈ st.offs := hoffs ▸ List.mem_append_right _ List.mem_cons_self
  have hplaced := h.placed
  rw [hoffs] at hplaced
  have hox := (placed_append.mp hplaced).2.1
  refine ⟨hend.trans hox.symm, ho, pre ++ [o], ?_, ?_⟩
  · rw [hoffs, List.append_assoc]
    rfl
  · rw [endOf_append, ← hox]
    simp only [endOf, List.map_cons, List.map_nil, List.sum_cons, List.sum_nil, Nat.add_zero,
      h.length_recBlock ho]

/-- The records are where the index file says. -/
theorem Store.Ok.recordStarts_ahead (h : st.Ok) {n x : ℕ} (hx : st.Ahead x l)
    (hn : l.length ≤ n) : recordStarts st.idxFile n x = l := by
  induction l generalizing n x with
  | nil =>
    cases n with
    | zero => rfl
    | succ n => rw [recordStarts, if_pos (h.ahead_nil hx).ge]
  | cons o l ih =>
    obtain ⟨n, rfl⟩ : ∃ m, n = m + 1 := ⟨n - 1, by simp at hn; omega⟩
    obtain ⟨rfl, ho, hnext⟩ := h.ahead_cons hx
    have hhead := (h.contains_head ho).readAt_eq
      (length_recHead (h.ptr_le x) (h.body_ok x ho).le_max)
    have hlen : atol ((readAt st.idxFile x (PTR_SZ + IDXLEN_SZ)).drop PTR_SZ) =
        (st.body x).text.length := by
      rw [hhead, atol_recHead_len (h.ptr_le x)]
    rw [recordStarts, if_neg (not_le.mpr (h.off_lt ho))]
    simp only [hlen, Int.toNat_natCast]
    rw [ih hnext (Nat.le_of_succ_le_succ hn)]

theorem Store.Ok.near_iff (h : st.Ok) : st.files.Near ↔ ∀ o ∈ st.offs, o ≤ PTR_MAX := by
  have hlen : st.offs.length ≤ st.idxFile.length := by
    have hsub := h.nodup_offs.subperm fun o ho => List.mem_range.mpr (h.off_lt ho)
    exact hsub.length_le.trans_eq List.length_range
  change (∀ o ∈ recordStarts st.idxFile st.idxFile.length 967, o ≤ PTR_MAX) ↔ _
  rw [h.recordStarts_ahead st.ahead_first hlen]

/-- The key and the data of a record. -/
def Store.pair (st : Store) (o : ℕ) : List Byte × List Byte :=
  ((st.body o).key, st.dat (st.body o).datoff)

/-- The records that have a key. -/
def Store.live (st : Store) (l : List ℕ) : List ℕ := l.filter fun o => ¬ Blank (st.body o).key

theorem Store.live_cons (st : Store) (o : ℕ) (l : List ℕ) :
    st.live (o :: l) = if Blank (st.body o).key then st.live l else o :: st.live l := by
  by_cases hb : Blank (st.body o).key
  · rw [if_pos hb, live, List.filter_cons_of_neg (by simpa using hb), live]
  · rw [if_neg hb, live, List.filter_cons_of_pos (by simpa using hb), live]

theorem Store.mem_live {l : List ℕ} : o ∈ st.live l ↔ o ∈ l ∧ ¬ Blank (st.body o).key := by
  simp only [live, List.mem_filter, decide_eq_true_eq]

theorem runs_seekCur (files : Files) (pos : Pos) :
    Runs (lseek .idx 0 .seekCur) (files, pos) [] (.ok (pos.idx : ℤ)) (files, pos) := by
  refine Runs.call rfl ?_
  simp only [fileCall, seekBase, Pos.get, Int.add_zero,
    if_neg (not_lt.mpr (Int.natCast_nonneg _)), Int.toNat_natCast]
  rfl

variable (hok : st.Ok)
include hok

/-- _db_readidx at the end of the index file. -/
theorem runs_readidxEnd (db : DB) {pos : Pos} (hpos : st.Ahead pos.idx []) : ∃ db',
    Runs (dbReadidx db 0) (st.files, pos) [] (.ok (db', -1)) (st.files, pos) ∧
      db.SameChain db' := by
  have hnil : readAt (st.files.get .idx) (pos.get .idx) (PTR_SZ + IDXLEN_SZ) = [] := by
    have hx : pos.get .idx = st.idxFile.length := hok.ahead_nil hpos
    rw [hx, readAt]
    exact congrArg _ List.drop_length
  refine ⟨{ db with idxoff := pos.idx }, ?_, rfl, rfl, rfl⟩
  unfold dbReadidx
  rw [if_pos rfl]
  refine (runs_seekCur _ _).next ((Runs.check (by omega) _).next ((runs_read hnil).next ?_))
  rw [if_pos ⟨rfl, rfl⟩]
  exact Runs.ret _ _

/-- _db_readidx of the next record. -/
theorem runs_readidxNext (db : DB) {pos : Pos} (hpos : st.Ahead pos.idx (o :: l)) : ∃ db' pos',
    Runs (dbReadidx db 0) (st.files, pos) [] (.ok (db', (st.ptr o : ℤ))) (st.files, pos') ∧
      db.SameChain db' ∧ db'.Located o (st.ptr o) (st.body o) ∧ st.Ahead pos'.idx l := by
  obtain ⟨hx, ho, hnext⟩ := hok.ahead_cons hpos
  have hrec := hok.hasRec ho
  have hhead := length_recHead hrec.ptr_le hrec.ok.le_max
  have hmin := hrec.ok.min_le
  have hmax := hrec.ok.le_max
  have hread : readAt (st.files.get .idx) (pos.get .idx) (PTR_SZ + IDXLEN_SZ) =
      recHead (st.ptr o) (st.body o) := by
    have hget : pos.get .idx = o := hx
    rw [hget]
    exact (hok.contains_head ho).readAt_eq hhead
  have htext : readAt (st.files.get .idx)
      ((pos.set .idx (pos.get .idx + (recHead (st.ptr o) (st.body o)).length)).get .idx)
      (st.body o).text.length = (st.body o).text := by
    have hget : pos.get .idx = o := hx
    rw [hhead, hget]
    exact (hok.contains_text ho).readAt_eq rfl
  refine ⟨{ db with
    idxoff := pos.idx
    ptrval := st.ptr o
    idxlen := (st.body o).text.length
    idxbuf := (st.body o).key
    datoff := (st.body o).datoff
    datlen := (st.body o).datlen },
    { pos with idx := pos.idx + (recHead (st.ptr o) (st.body o)).length + (st.body o).text.length },
    ?_, ⟨rfl, rfl, rfl⟩, ⟨congrArg Nat.cast hx, rfl, rfl, rfl, rfl⟩, ?_⟩
  · unfold dbReadidx
    rw [if_pos rfl]
    refine (runs_seekCur _ _).next ((Runs.check (by omega) _).next ((runs_read hread).next ?_))
    rw [if_neg (by simp [hhead, PTR_SZ])]
    refine (Runs.check (by simp [hhead]) _).next ?_
    simp only [atol_recHead_ptr (hok.ptr_le o), atol_recHead_len (hok.ptr_le o),
      sizeOfLong_natCast]
    refine (Runs.check (by omega) _).next ((runs_read htext).next ?_)
    refine (Runs.check (by simp) _).next ((Runs.check (by simp [getLast?_text]) _).next ?_)
    rw [parseIdx_text (hok.body_ok _ ho)]
    exact Runs.ret _ _
  · have hend : pos.idx + (recHead (st.ptr o) (st.body o)).length + (st.body o).text.length =
        o + (PTR_SZ + IDXLEN_SZ + (st.body o).text.length) := by
      rw [hhead, hx, Nat.add_assoc]
    rw [← hend] at hnext
    exact hnext

/-- The loop of db_nextrec goes to the next record that has a key. -/
theorem runs_nextrecLoop {bound : ℕ} (hbound : l.length < bound) (db : DB) {pos : Pos}
    (hpos : st.Ahead pos.idx l) : ∃ db' more pos',
      Runs (nextrecLoop bound db) (st.files, pos) [] (.ok (db', more)) (st.files, pos') ∧
      db.SameChain db' ∧
      ((more = false ∧ st.live l = [] ∧ st.Ahead pos'.idx []) ∨
        (more = true ∧ ∃ o rest, o ∈ st.offs ∧ db'.Located o (st.ptr o) (st.body o) ∧
          st.live l = o :: st.live rest ∧ rest.length < l.length ∧ st.Ahead pos'.idx rest)) := by
  induction l generalizing bound db pos with
  | nil =>
    obtain ⟨bound, rfl⟩ : ∃ n, bound = n + 1 := ⟨bound - 1, by simp at hbound; omega⟩
    obtain ⟨db', hread, hsame⟩ := runs_readidxEnd hok db hpos
    refine ⟨db', false, pos, hread.next ?_, hsame, Or.inl ⟨rfl, rfl, hpos⟩⟩
    simp only
    rw [if_pos (by decide)]
    exact Runs.ret _ _
  | cons o l ih =>
    simp only [List.length_cons] at hbound
    obtain ⟨bound, rfl⟩ : ∃ n, bound = n + 1 := ⟨bound - 1, by omega⟩
    obtain ⟨db₁, pos₁, hread, hsame, hloc, hahead⟩ := runs_readidxNext hok db hpos
    have ho := (hok.ahead_cons hpos).2.1
    by_cases hblank : Blank (st.body o).key
    · obtain ⟨db', more, pos', hloop, hsame', hcases⟩ :=
        ih (Nat.lt_of_succ_lt_succ hbound) db₁ hahead
      refine ⟨db', more, pos', hread.next ?_, hsame.trans hsame', ?_⟩
      · simp only
        rw [if_neg (by omega), if_pos ((all_space_iff _).mpr (hloc.idxbuf.symm ▸ hblank))]
        exact hloop
      · rw [Store.live_cons, if_pos hblank]
        refine hcases.imp_right ?_
        rintro ⟨rfl, a, rest, ha, hloc', hlive, hlt, hahead'⟩
        exact ⟨rfl, a, rest, ha, hloc', hlive, Nat.lt_succ_of_lt hlt, hahead'⟩
    · refine ⟨db₁, true, pos₁, hread.next ?_, hsame, Or.inr ⟨rfl, o, l, ho, hloc, ?_,
        Nat.lt_succ_self _, hahead⟩⟩
      · simp only
        rw [if_neg (by omega), if_neg fun hall => hblank (hloc.idxbuf ▸ (all_space_iff _).mp hall)]
        exact Runs.ret _ _
      · rw [Store.live_cons, if_neg hblank]

/-- db_nextrec gives the next record that has a key, if there is one. -/
theorem runs_nextrec (hfuel : l.length < fuel) (hdata : ∀ o ∈ st.live st.offs, st.HasData o)
    (db : DB) {pos : Pos} (hpos : st.Ahead pos.idx l) : ∃ db' pos' rest,
      Runs (dbNextrec fuel db) (st.files, pos) [] (.ok (db', (st.live l).head?.map st.pair))
        (st.files, pos') ∧ db.SameChain db' ∧
      st.Ahead pos'.idx rest ∧ st.live rest = (st.live l).tail ∧ rest.length ≤ l.length := by
  obtain ⟨db₁, more, pos₁, hloop, hsame, hcases⟩ := runs_nextrecLoop hok hfuel db hpos
  unfold dbNextrec
  rcases hcases with ⟨rfl, hlive, hahead⟩ | ⟨rfl, o, rest, ho, hloc, hlive, hlt, hahead⟩
  · rw [hlive]
    refine ⟨db₁, pos₁, [], ?_, hsame, hahead, rfl, Nat.zero_le _⟩
    refine (Runs.lock _ _ _ _ _).next ((Runs.check (by decide) _).next (hloop.next ?_))
    exact (Runs.unlock _ _ _ _).next ((Runs.check (by decide) _).next (Runs.ret _ _))
  · have hmem : o ∈ st.live l := hlive ▸ List.mem_cons_self
    have hd := hdata o (Store.mem_live.mpr ⟨ho, (Store.mem_live.mp hmem).2⟩)
    obtain ⟨dat, hdat⟩ := hok.runs_readdat hd hloc.datoff hloc.datlen pos₁
    rw [hlive]
    refine ⟨{ db₁ with
      datbuf := st.dat (st.body o).datoff
      cnt.nextrec := db₁.cnt.nextrec + 1 }, { pos₁ with dat := dat }, rest, ?_, hsame, hahead, rfl,
      hlt.le⟩
    refine (Runs.lock _ _ _ _ _).next ((Runs.check (by decide) _).next (hloop.next ?_))
    simp only
    rw [if_pos trivial, Prog.bind_assoc]
    refine hdat.next ((Runs.ret _ _).next ?_)
    simp only [hloc.idxbuf]
    exact (Runs.unlock _ _ _ _).next ((Runs.check (by decide) _).next (Runs.ret _ _))

end Scan

section Readable

variable {files : Files} {chain : ℕ → List ℕ} {free : List ℕ}

/-- What the functions that read go by: the records that have a key are on their
chains, and all of them lie where a pointer can lead. -/
structure Readable (files : Files) (st : Store) (chain : ℕ → List ℕ) : Prop where
  text : files = st.files
  ok : st.Ok
  mem_chain : ∀ h < NHASH_DEF, ∀ o, o ∈ chain h ↔
    o ∈ st.offs ∧ ¬ Blank (st.body o).key ∧ hashOf (st.body o).key = h
  nodup_chain : ∀ h < NHASH_DEF, (chain h).Nodup
  linked_chain : ∀ h < NHASH_DEF, Linked st.ptr (cell h) (chain h)
  key_injective : ∀ o ∈ st.offs, ∀ a ∈ st.offs, ¬ Blank (st.body o).key →
    (st.body o).key = (st.body a).key → o = a
  data : ∀ o ∈ st.offs, st.HasData o
  off_le : ∀ o ∈ st.offs, o ≤ PTR_MAX

namespace Readable

variable (h : Readable files st chain)
include h

theorem length_offs_le : st.offs.length ≤ PTR_MAX - 966 :=
  h.ok.length_le h.ok.nodup_offs (fun _ ho => ho) h.off_le

theorem length_offs_lt (hfuel : PTR_MAX < fuel) : st.offs.length < fuel :=
  lt_of_le_of_lt (h.length_offs_le.trans (Nat.sub_le _ _)) hfuel

theorem data_live : ∀ o ∈ st.live st.offs, st.HasData o :=
  fun o ho => h.data o (Store.mem_live.mp ho).1

theorem mem_chain_hash : o ∈ chain (hashOf key) ↔
    o ∈ st.offs ∧ ¬ Blank (st.body o).key ∧ hashOf (st.body o).key = hashOf key :=
  h.mem_chain _ (hashOf_lt key) o

theorem searched (key : List Byte) : st.Searched key (chain (hashOf key)) where
  linked := h.linked_chain _ (hashOf_lt key)
  nodup := h.nodup_chain _ (hashOf_lt key)
  mem _ ho := (h.mem_chain_hash.mp ho).1
  uniq o ho a ha hko hka := by
    obtain ⟨ho, hb, -⟩ := h.mem_chain_hash.mp ho
    exact h.key_injective o ho a (h.mem_chain_hash.mp ha).1 hb (hko.trans hka.symm)
  data _ ho _ := h.data _ (h.mem_chain_hash.mp ho).1

/-- What is found under a key is the data of the record that has it. -/
theorem lookup_eq_some {data : List Byte} : st.lookup (chain (hashOf key)) key = some data ↔
    ∃ o ∈ st.live st.offs, st.pair o = (key, data) := by
  constructor
  · intro hsome
    by_cases hex : ∃ o ∈ chain (hashOf key), (st.body o).key = key
    · obtain ⟨o, ho, hkey⟩ := hex
      obtain ⟨hmem, hb, -⟩ := h.mem_chain_hash.mp ho
      rw [(h.searched key).found ho hkey] at hsome
      exact ⟨o, Store.mem_live.mpr ⟨hmem, hb⟩, Prod.ext hkey (Option.some.inj hsome)⟩
    · rw [Store.lookup_eq_none fun o ho hk => hex ⟨o, ho, hk⟩] at hsome
      cases hsome
  · rintro ⟨o, ho, hpair⟩
    obtain ⟨ho, hb⟩ := Store.mem_live.mp ho
    obtain ⟨hkey, hdata⟩ := Prod.mk.inj hpair
    rw [(h.searched key).found (h.mem_chain_hash.mpr ⟨ho, hb, congrArg hashOf hkey⟩) hkey, hdata]

end Readable

/-- The layout, and a data record of its own for every index record. -/
structure Resting (files : Files) (st : Store) (chain : ℕ → List ℕ) (free : List ℕ) : Prop
    extends LayoutOf files st chain free where
  data : ∀ o ∈ st.offs, st.HasData o
  dat_inj : ∀ o ∈ st.offs, ∀ a ∈ st.offs, (st.body o).datoff = (st.body a).datoff → o = a

namespace Resting

variable (h : Resting files st chain free)
include h

theorem off_le (ho : o ∈ st.offs) : o ≤ PTR_MAX := by
  by_cases hb : Blank (st.body o).key
  · exact h.ok.mem_linked_le h.linked_free ((h.mem_free o).mpr ⟨ho, hb⟩)
  · have hh := hashOf_lt (st.body o).key
    exact h.ok.mem_linked_le (h.linked_chain _ hh) ((h.mem_chain _ hh o).mpr ⟨ho, hb, rfl⟩)

theorem readable : Readable files st chain where
  text := h.text
  ok := h.ok
  mem_chain := h.mem_chain
  nodup_chain := h.nodup_chain
  linked_chain := h.linked_chain
  key_injective := h.key_injective
  data := h.data
  off_le _ := h.off_le

theorem length_offs_le : st.offs.length ≤ PTR_MAX - 966 := h.readable.length_offs_le

theorem length_offs_lt (hfuel : PTR_MAX < fuel) : st.offs.length < fuel :=
  h.readable.length_offs_lt hfuel

theorem data_live : ∀ o ∈ st.live st.offs, st.HasData o := h.readable.data_live

theorem mem_chain_hash : o ∈ chain (hashOf key) ↔
    o ∈ st.offs ∧ ¬ Blank (st.body o).key ∧ hashOf (st.body o).key = hashOf key :=
  h.readable.mem_chain_hash

theorem searched (key : List Byte) : st.Searched key (chain (hashOf key)) :=
  h.readable.searched key

theorem lookup_eq_some {data : List Byte} : st.lookup (chain (hashOf key)) key = some data ↔
    ∃ o ∈ st.live st.offs, st.pair o = (key, data) := h.readable.lookup_eq_some

end Resting

end Readable

end Apue.Db
