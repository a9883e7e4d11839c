import Apue.DbAlone
import Apue.DbStoring

/-!
Scanning. db_nextrec holds a read lock on the free list, which keeps every
deletion out, and reads the head, the rest and the data of a record in three
calls. A record with a key is then on its chain, where db_fetch finds it, or in
the hands of a process that is storing it; from the first of the three reads on
its length cannot change, and from the second on neither can its key.

The file offset of a process that does nothing but scan is always at the start
of a record. A process that also does other operations may scan from anywhere;
its scan changes nothing, whatever it reads.
-/
namespace Apue.Db

open Programs Decimal ByteFiles Pointers Threads

variable {P : Type} [DecidableEq P] {fuel : ℕ} {allowed : P → Op → Prop} {w₀ : DbWorld P}
variable {p : P} {op : Op} {pos : Pos} {held : Held}

/-- What a process knows in an operation that is not on a key. -/
structure Apart (p : P) (op : Op) (held : Held) (w : DbWorld P) : Prop where
  held : w.ghost.held p = held
  expect : w.ghost.expect p = none
  current : Hist.current w.hist p = some op
  hands : EmptyHands p w

theorem Apart.stable {w w' : DbWorld P} (ha : Apart p op held w) (hr : Rely p w w') :
    Apart p op held w' where
  held := hr.held.trans ha.held
  expect := hr.expect.trans ha.expect
  current := hr.current.trans ha.current
  hands := ha.hands.stable hr

/-- A lock or an unlock of `p` itself. -/
theorem Apart.setHeld {w : DbWorld P} (ha : Apart p op held w) (r : Region)
    (value : Option LockType) (c : Call) (s : Shared P) :
    Apart p op (Function.update held r value) (w.after (.sys p op c) s
      { w.ghost with held := Db.setHeld w.ghost.held p r value }) where
  held := by
    refine (setHeld_self _ _ _).trans ?_
    rw [ha.held]
  expect := ha.expect
  current := (current_sys _ _ _ _ _ _).trans ha.current
  hands := ⟨ha.hands.not_owned, ha.hands.not_made⟩

/-- The locks of a process that scans. -/
def scanLocks : Held := Function.update noLocks .free (some .rdlck)

theorem scanLocks_free : scanLocks .free = some .rdlck := Function.update_self _ _ _

theorem scanLocks_release : Function.update scanLocks .free none = noLocks := by
  rw [scanLocks, Function.update_idem]
  exact Function.update_eq_self_iff.mpr rfl

/-- A program that only reads, whatever it finds. -/
theorem wp_readOnly {α : Type} {prog : Prog sig α} {q : α → Prop} (h : ReadOnly prog q)
    (hdiv : op = .nextrec) (hinv₀ : Inv fuel allowed w₀)
    (hstop : MayStop p w₀) {post : α → Pos → DbWorld P → Prop}
    (hpost : ∀ a pos' w, Inv fuel allowed w → Rely p w₀ w → q a → post a pos' w) :
    (outline fuel allowed).Wp p op prog pos w₀ post := by
  have hgen : ∀ w₁, Inv fuel allowed w₁ → Rely p w₀ w₁ →
      (outline fuel allowed).Wp p op prog pos w₁ post := by
    induction prog generalizing pos with
    | ret a => exact fun w₁ hinv₁ hr₁ => hpost a pos w₁ hinv₁ hr₁ h
    | abort msg =>
      intro w₁ _ hr₁
      exact wp_abort (hstop.stable hr₁)
    | diverge => exact fun _ _ _ => hdiv
    | call c k ih =>
      intro w₁ _ hr₁
      have hstep : ∀ (hq : Quiet c) (hfiles : ∀ files, (fileCall c (files, pos)).2.1 = files),
          (∀ v, ReadOnly (k v) q) → (outline fuel allowed).Wp p op (.call c k) pos w₁ post := by
        intro hq hfiles hk
        have hcall : (outline fuel allowed).Wp p op (.call c .ret) pos w₁ fun a l' w' =>
            (outline fuel allowed).Wp p op (k a) l' w' post :=
          wp_quiet hq hfiles fun w hinv hr => ih _ (hk _) w hinv (hr₁.trans hr)
        exact (outline fuel allowed).wp_bind hcall
      cases c with
      | lseek fd off wh =>
        refine hstep trivial (fun files => ?_) h
        simp only [fileCall]
        split <;> rfl
      | read fd n => exact hstep trivial (fun files => rfl) h
      | write fd bs => exact h.elim
      | setlkw fd type start len => exact h.elim
      | unlck fd start len => exact h.elim
      | fstat fd => exact h.elim
  exact hgen w₀ hinv₀ (Rely.refl p w₀)

theorem wp_read {fd : Fd} {k : ℕ} {post : List Byte → Pos → DbWorld P → Prop}
    (h : ∀ w, Inv fuel allowed w → Rely p w₀ w →
      post (readAt (w.shared.files.get fd) (pos.get fd) k)
        (pos.set fd (pos.get fd + (readAt (w.shared.files.get fd) (pos.get fd) k).length)) w) :
    (outline fuel allowed).Wp p op (read fd k) pos w₀ post :=
  wp_quiet (c := .read fd k) trivial (fun _ => rfl) h

/-- The lseek of db_nextrec: the offset stays where it is. -/
theorem wp_seekCur {post : ℤ → Pos → DbWorld P → Prop}
    (h : ∀ w, Inv fuel allowed w → Rely p w₀ w → post pos.idx pos w) :
    (outline fuel allowed).Wp p op (lseek .idx 0 .seekCur) pos w₀ post := by
  have hcall : ∀ files, fileCall (.lseek .idx 0 .seekCur) (files, pos) =
      ((pos.idx : ℤ), files, pos) := by
    intro files
    simp only [fileCall, seekBase, Pos.get, Int.add_zero,
      if_neg (not_lt.mpr (Int.natCast_nonneg _)), Int.toNat_natCast]
    rfl
  refine wp_quiet (c := .lseek .idx 0 .seekCur) trivial (fun files => ?_) fun w hinv hr => ?_
  · rw [hcall]
  · rw [hcall]
    exact h w hinv hr

/-- Where a record starts, the next one starts behind it. -/
theorem AtRecord.cases {st : Store} (hok : st.Ok) {x : ℕ} (h : AtRecord st x) :
    x = st.idxFile.length ∨
      x ∈ st.offs ∧ AtRecord st (x + (PTR_SZ + IDXLEN_SZ + (st.body x).text.length)) := by
  obtain ⟨pre, post, hoffs, hx⟩ := h
  have hsize : ∀ as, (∀ o ∈ as, o ∈ st.offs) →
      endOf (fun o => PTR_SZ + IDXLEN_SZ + (st.body o).text.length) 967 as =
        endOf (fun o => (st.recBlock o).length) 967 as := fun as has =>
    endOf_congr fun o ho => (hok.length_recBlock (has o ho)).symm
  have hpre : ∀ o ∈ pre, o ∈ st.offs := fun o ho => hoffs ▸ List.mem_append_left _ ho
  cases post with
  | nil =>
    left
    rw [List.append_nil] at hoffs
    rw [hx, hsize pre hpre, hok.length_idxFile, hoffs]
  | cons a post =>
    right
    have hplaced := hok.placed
    rw [hoffs] at hplaced
    have hax : a = x := by
      rw [hx, hsize pre hpre]
      exact (placed_append.mp hplaced).2.1
    subst hax
    refine ⟨hoffs ▸ List.mem_append_right _ List.mem_cons_self, pre ++ [a], post, ?_, ?_⟩
    · rw [hoffs, List.append_assoc]
      rfl
    · rw [endOf_append, ← hx]
      simp only [endOf, List.map_cons, List.map_nil, List.sum_cons, List.sum_nil, Nat.add_zero]

/-- The fields of the handle for a record that a scan has read. -/
structure DB.Scanned (db : DB) (b : Body) : Prop where
  idxbuf : db.idxbuf = b.key
  datoff : db.datoff = b.datoff
  datlen : db.datlen = b.datlen

/-- _db_readidx of the next record. -/
theorem wp_readidxNext {db : DB} (hat : AtRecord w₀.ghost.st pos.idx)
    {post : DB × ℤ → Pos → DbWorld P → Prop}
    (hend : ∀ db' w, db.SameChain db' → Inv fuel allowed w → Rely p w₀ w → post (db', -1) pos w)
    (hnext : ∀ db' (v a : ℕ) pos' w, db.SameChain db' → Inv fuel allowed w → Rely p w₀ w →
      a ∈ w.ghost.st.offs → db'.Scanned (w.ghost.st.body a) → AtRecord w.ghost.st pos'.idx →
      post (db', v) pos' w) :
    (outline fuel allowed).Wp p op (dbReadidx db 0) pos w₀ post := by
  unfold dbReadidx
  rw [if_pos rfl]
  refine (outline fuel allowed).wp_bind (wp_seekCur fun w₁ hinv₁ hr₁ => ?_)
  refine (outline fuel allowed).wp_bind (wp_check (by omega) ?_)
  refine (outline fuel allowed).wp_bind (wp_read fun w₂ hinv₂ hr₂ => ?_)
  have hat₂ := (hat.stable hr₁).stable hr₂
  have hidx : w₂.shared.files.get .idx = w₂.ghost.st.idxFile := by
    rw [hinv₂.files]
    rfl
  have hget : pos.get .idx = pos.idx := rfl
  rw [hidx, hget]
  rcases hat₂.cases hinv₂.records.ok with hx | ⟨hx, hnext₂⟩
  · have hnil : readAt w₂.ghost.st.idxFile pos.idx (PTR_SZ + IDXLEN_SZ) = [] := by
      rw [hx, readAt, List.drop_length]
      rfl
    simp only [hnil]
    rw [if_pos ⟨rfl, trivial⟩]
    exact hend _ w₂ ⟨rfl, rfl, rfl⟩ hinv₂ (hr₁.trans hr₂)
  · have hok := hinv₂.records.ok
    have hbok := hok.body_ok _ hx
    have hlen := length_recHead (hok.ptr_le pos.idx) hbok.le_max
    have hmin := hbok.min_le
    have hmax := hbok.le_max
    rw [(hok.contains_head hx).readAt_eq hlen, hlen]
    rw [if_neg (by simp [PTR_SZ])]
    refine (outline fuel allowed).wp_bind (wp_check (by simp) ?_)
    simp only [atol_recHead_ptr (hok.ptr_le pos.idx), atol_recHead_len (hok.ptr_le pos.idx),
      sizeOfLong_natCast]
    refine (outline fuel allowed).wp_bind (wp_check (by omega) ?_)
    refine (outline fuel allowed).wp_bind (wp_read fun w₃ hinv₃ hr₃ => ?_)
    have hx₃ := hr₃.offs.subset hx
    have hlen₃ := (hr₃.fixed _ hx).1
    have htext : readAt (w₃.shared.files.get .idx)
        ((pos.set .idx (pos.idx + (PTR_SZ + IDXLEN_SZ))).get .idx)
        (w₂.ghost.st.body pos.idx).text.length = (w₃.ghost.st.body pos.idx).text := by
      rw [hinv₃.files]
      exact (hinv₃.records.ok.contains_text hx₃).readAt_eq hlen₃
    rw [htext]
    refine (outline fuel allowed).wp_bind (wp_check (by simp [hlen₃]) ?_)
    refine (outline fuel allowed).wp_bind (wp_check (by simp [getLast?_text]) ?_)
    rw [parseIdx_text (hinv₃.records.ok.body_ok _ hx₃)]
    refine hnext _ _ pos.idx _ w₃ ⟨rfl, rfl, rfl⟩ hinv₃ ((hr₁.trans hr₂).trans hr₃) hx₃
      ⟨rfl, rfl, rfl⟩ ?_
    have hat₃ := hnext₂.stable hr₃
    rw [← hlen₃, ← Nat.add_assoc] at hat₃
    exact hat₃

/-- The loop of db_nextrec ends at the end of the file or at a record with a key. -/
theorem wp_nextrecLoop {bound : ℕ} {db : DB} (hat : AtRecord w₀.ghost.st pos.idx)
    {post : DB × Bool → Pos → DbWorld P → Prop}
    (hend : ∀ db' pos' w, db.SameChain db' → Inv fuel allowed w → Rely p w₀ w →
      AtRecord w.ghost.st pos'.idx → post (db', false) pos' w)
    (hnext : ∀ db' a pos' w, db.SameChain db' → Inv fuel allowed w → Rely p w₀ w →
      a ∈ w.ghost.st.offs → ¬ Blank (w.ghost.st.body a).key →
      db'.Scanned (w.ghost.st.body a) → AtRecord w.ghost.st pos'.idx → post (db', true) pos' w) :
    (outline fuel allowed).Wp p .nextrec (nextrecLoop bound db) pos w₀ post := by
  induction bound generalizing db pos w₀ with
  | zero => exact rfl
  | succ bound ih =>
    refine (outline fuel allowed).wp_bind (wp_readidxNext hat ?_ ?_)
    · intro db' w hsame hinv hr
      simp only
      rw [if_pos (by decide)]
      exact hend db' pos w hsame hinv hr (hat.stable hr)
    · intro db' v a pos' w hsame hinv hr ha hscan hat'
      simp only
      rw [if_neg (by omega)]
      by_cases hblank : Blank (w.ghost.st.body a).key
      · rw [if_pos ((all_space_iff _).mpr (hscan.idxbuf.symm ▸ hblank))]
        refine ih hat' ?_ ?_
        · intro db'' pos'' w' hsame' hinv' hr' hat''
          exact hend db'' pos'' w' (hsame.trans hsame') hinv' (hr.trans hr') hat''
        · intro db'' a' pos'' w' hsame' hinv' hr' ha' hb' hscan' hat''
          exact hnext db'' a' pos'' w' (hsame.trans hsame') hinv' (hr.trans hr') ha' hb' hscan' hat''
      · rw [if_neg fun hall => hblank (hscan.idxbuf ▸ (all_space_iff _).mp hall)]
        exact hnext db' a pos' w hsame hinv hr ha hblank hscan hat'

section Binding

variable {w : DbWorld P} (hinv : Inv fuel allowed w) (hidle : w.ghost.del = .idle)
include hinv hidle

/-- db_fetch finds every record that is on a chain, as long as nobody deletes. -/
theorem binding_of_chain (hfuel : PTR_MAX < fuel) {a h : ℕ} (ha : a ∈ w.ghost.st.offs)
    (hpl : w.ghost.place a = .chain h) :
    Binding fuel w.shared.files (w.ghost.st.body a).key
      (w.ghost.st.dat (w.ghost.st.body a).datoff) := by
  obtain ⟨hkey, hhash⟩ := hinv.lists.key_ok a ha h hpl
  have hh : h < NHASH_DEF := hhash ▸ hashOf_lt _
  have hlinked := hinv.lists.linked_chain h hh
  rw [hidle] at hlinked
  have hmem := fun o => (hinv.lists.mem_chain h hh o).mp
  have hs : w.ghost.st.Searched (w.ghost.st.body a).key (w.ghost.chain h) := {
    linked := by
      rw [hhash]
      exact hlinked
    nodup := hinv.lists.nodup_chain h hh
    mem := fun o ho => (hmem o ho).1
    uniq := fun o ho b hb hko hkb => hinv.lists.key_inj o (hmem o ho).1 b (hmem b hb).1 h
      (hmem o ho).2 (hmem b hb).2 (hko.trans hkb.symm)
    data := fun o ho _ =>
      ⟨hinv.records.dat_mem o (hmem o ho).1, hinv.records.dat_len o (hmem o ho).1⟩ }
  obtain ⟨db, -, -, pos, hruns⟩ := goes_fetch hfuel hinv.records.ok opened_openedHandle hs
    ⟨967, 0⟩
  rw [hs.found ((hinv.lists.mem_chain h hh a).mpr ⟨ha, hpl⟩) rfl] at hruns
  rw [Binding, hinv.files]
  exact ⟨db, pos, hruns.run⟩

/-- A record with a key was stored, and db_fetch finds it or it is being stored,
unless it begins beyond the largest pointer. -/
theorem seen_of_record (hfuel : PTR_MAX < fuel) {a : ℕ} (ha : a ∈ w.ghost.st.offs)
    (hkey : ¬ Blank (w.ghost.st.body a).key) :
    Begun w.hist (w.ghost.st.body a).key (w.ghost.st.dat (w.ghost.st.body a).datoff) ∧
      (w.shared.files.Near → BoundNow fuel w.hist w.shared (w.ghost.st.body a).key
        (w.ghost.st.dat (w.ghost.st.body a).datoff)) := by
  cases hpl : w.ghost.place a with
  | chain h =>
    refine ⟨hinv.origins.begun a ha h hpl ?_,
      fun _ => Or.inl (binding_of_chain hinv hidle hfuel ha hpl)⟩
    rw [hidle]
    nofun
  | free => exact absurd (hinv.lists.key_blank a ha hpl) hkey
  | proc q =>
    have hmaking := hinv.origins.making a ha q hpl hkey
    refine ⟨hmaking.begun, fun hnear => ?_⟩
    rw [hinv.files] at hnear
    rcases hmaking with ⟨flag, hcur⟩ | ⟨hfar, -⟩
    · exact Or.inr ⟨q, flag, hcur⟩
    · exact absurd (hinv.records.ok.near_iff.mp hnear a ha) (not_le.mpr hfar)

end Binding

/-- The pair was stored and was bound, or being bound, during the scan of `p`. -/
structure Seen (fuel : ℕ) (p : P) (key data : List Byte) (hist : DbHist P) : Prop where
  begun : Begun hist key data
  during : (∀ x ∈ hist, x.2.files.Near) → BoundDuring fuel p hist key data

theorem Seen.extend {key data : List Byte} {hist ext : DbHist P} (h : Seen fuel p key data hist)
    (hext : ∀ e ∈ ext, ¬ e.1.Bounds p) : Seen fuel p key data (hist ++ ext) where
  begun := h.begun.mono (List.subset_append_left _ _)
  during := by
    intro hnear
    obtain ⟨past, e, s, later, hhist, hlater, hcur, hbound⟩ :=
      h.during fun x hx => hnear x (List.mem_append_left _ hx)
    refine ⟨past, e, s, later ++ ext, by rw [hhist, List.append_assoc], fun x hx => ?_, hcur, hbound⟩
    rcases List.mem_append.mp hx with hx | hx
    · exact hlater x hx
    · exact hext x hx

theorem Seen.stable {key data : List Byte} {w w' : DbWorld P} (h : Seen fuel p key data w.hist)
    (hr : Rely p w w') : Seen fuel p key data w'.hist := by
  obtain ⟨ext, hext, hb⟩ := hr.hist
  rw [hext]
  exact h.extend hb

theorem Seen.sys {key data : List Byte} {hist : DbHist P} (h : Seen fuel p key data hist) (q : P)
    (op : Op) (c : Call) (s : Shared P) : Seen fuel p key data (hist ++ [(.sys q op c, s)]) :=
  h.extend fun e he => by
    rw [List.mem_singleton.mp he]
    exact id

/-- What a scan knows while it holds its lock. -/
structure Scanning (fuel : ℕ) (allowed : P → Op → Prop) (p : P) (w : DbWorld P) : Prop where
  inv : Inv fuel allowed w
  apart : Apart p .nextrec scanLocks w
  idle : w.ghost.del = .idle

theorem Scanning.held_ne {w : DbWorld P} (hs : Scanning fuel allowed p w) :
    w.ghost.held p .free ≠ none := by
  rw [hs.apart.held, scanLocks_free]
  nofun

theorem Scanning.stable {w w' : DbWorld P} (hs : Scanning fuel allowed p w)
    (hinv : Inv fuel allowed w') (hr : Rely p w w') : Scanning fuel allowed p w' where
  inv := hinv
  apart := hs.apart.stable hr
  idle := (hr.free hs.held_ne).2.trans hs.idle

/-- _db_readdat of the record that the scan has found. -/
theorem wp_readdatScan (hfuel : PTR_MAX < fuel) {db : DB} {a : ℕ}
    (hs : Scanning fuel allowed p w₀) (ha : a ∈ w₀.ghost.st.offs)
    (hkey : ¬ Blank (w₀.ghost.st.body a).key) (hscan : db.Scanned (w₀.ghost.st.body a))
    {post : DB → Pos → DbWorld P → Prop}
    (h : ∀ data pos' w, pos'.idx = pos.idx → Scanning fuel allowed p w → Rely p w₀ w →
      Seen fuel p db.idxbuf data w.hist → post { db with datbuf := data } pos' w) :
    (outline fuel allowed).Wp p .nextrec (dbReaddat db) pos w₀ post := by
  have hoff := hscan.datoff
  have hlen := hscan.datlen
  have hbuf := hscan.idxbuf
  unfold dbReaddat
  refine (outline fuel allowed).wp_bind ?_
  rw [hoff]
  refine wp_seek fun w₁ hinv₁ hr₁ => ?_
  refine (outline fuel allowed).wp_bind (wp_check (by omega) ?_)
  refine (outline fuel allowed).wp_bind (wp_quietAt (c := .read .dat db.datlen) trivial
    (fun _ => rfl) fun w₂ hinv₂ hr₂ hinv₃ => ?_)
  have hr := hr₁.trans hr₂
  have hs₂ := hs.stable hinv₂ hr
  have ha₂ := hr.offs.subset ha
  have hbody : w₂.ghost.st.body a = w₀.ghost.st.body a := (hr.fixed a ha).2 hs.held_ne hkey
  have hd := hinv₂.records.dat_mem a ha₂
  have hdlen : (w₂.ghost.st.dat (w₂.ghost.st.body a).datoff ++ [NEWLINE]).length = db.datlen := by
    rw [hlen, ← hbody, hinv₂.records.dat_len a ha₂]
    exact List.length_append
  have hbytes : (fileCall (.read .dat db.datlen) (w₂.shared.files,
      pos.set .dat (w₀.ghost.st.body a).datoff)).1 =
        w₂.ghost.st.dat (w₂.ghost.st.body a).datoff ++ [NEWLINE] := by
    have hcontains := hinv₂.records.ok.contains_dat hd
    rw [hbody] at hcontains hdlen ⊢
    change readAt (w₂.shared.files.get .dat) (w₀.ghost.st.body a).datoff db.datlen = _
    rw [hinv₂.files]
    exact hcontains.readAt_eq hdlen
  rw [hbytes]
  refine (outline fuel allowed).wp_bind (wp_check (by simp [hdlen]) ?_)
  refine (outline fuel allowed).wp_bind (wp_check (by simp) ?_)
  rw [List.dropLast_concat, cstr_eq_self (hinv₂.records.ok.dat_ok _ hd)]
  have hquiet := Rely.quiet w₂ p p .nextrec (.read .dat db.datlen)
  have hs₃ := hs₂.stable hinv₃ hquiet
  rw [← hoff]
  refine h _ _ _ ?_ hs₃ (hr.trans hquiet) ?_
  · rfl
  obtain ⟨hbegun, hbound⟩ := seen_of_record hinv₃ hs₃.idle hfuel ha₂ (by
    change ¬ Blank (w₂.ghost.st.body a).key
    rw [hbody]
    exact hkey)
  have hkeyeq : (w₂.ghost.st.body a).key = db.idxbuf := by
    rw [hbody, hbuf]
  rw [← hkeyeq]
  refine ⟨hbegun, fun hnear => ⟨w₂.hist, _, w₂.shared, [], (List.append_nil _).symm,
    fun _ hx => absurd hx List.not_mem_nil, hs₃.apart.current, hbound ?_⟩⟩
  exact hnear _ (List.mem_append_right _ List.mem_cons_self)

/-- The return of a scan or of db_rewind. -/
theorem safe_apart {r : Res} {db : DB} (hdb : db.Opened) (ha : Apart p op noLocks w₀)
    (hop : op = .rewind ∨ op = .nextrec)
    (hseen : ∀ key data, Scanner allowed p → op = .nextrec → r = .record (some (key, data)) →
      Seen fuel p key data w₀.hist)
    (hat : Scanner allowed p → AtRecord w₀.ghost.st pos.idx) :
    (outline fuel allowed).Safe p op (.ret (db, r)) pos w₀ := by
  intro w hinv hr
  have ha' := ha.stable hr
  refine ⟨_, moves_ret op hinv ha'.hands.not_owned ?_ fun key data hsc ho hres => ?_,
    ⟨hdb, ha'.held, Function.update_self _ _ _, ha'.hands.not_owned, ha'.hands.not_made,
      fun hsc => (hat hsc).stable hr⟩⟩
  · rw [ha'.expect]
    rcases hop with rfl | rfl <;> rfl
  · have hseen' := (hseen key data hsc ho hres).stable hr
    exact ⟨hseen'.begun, hseen'.during⟩

/-- db_rewind. -/
theorem safe_rewind {db : DB} (hdb : db.Opened) (ha : Apart p .rewind noLocks w₀) :
    (outline fuel allowed).Safe p .rewind (opBody fuel .rewind db) pos w₀ := by
  have htarget : (db.nhash + 1) * PTR_SZ + 1 = 967 := by
    rw [hdb.1]
    rfl
  refine (outline fuel allowed).safe_of_wp ((outline fuel allowed).wp_bind ?_)
  unfold dbRewind
  rw [htarget]
  refine (outline fuel allowed).wp_bind (wp_seek fun w hinv hr => ?_)
  refine (outline fuel allowed).wp_bind (wp_check (by decide) ?_)
  refine safe_apart hdb (ha.stable hr) (Or.inl rfl) (fun _ _ _ ho => nomatch ho) fun _ => ?_
  exact ⟨[], w.ghost.st.offs, rfl, rfl⟩

/-- The read lock of a scan. -/
theorem wp_lockScan (ha : Apart p .nextrec noLocks w₀) {post : ℤ → Pos → DbWorld P → Prop}
    (h : ∀ w, Scanning fuel allowed p w →
      (∀ x, AtRecord w₀.ghost.st x → AtRecord w.ghost.st x) → post 0 pos w) :
    (outline fuel allowed).Wp p .nextrec (readwLock .idx FREE_OFF 1) pos w₀ post := by
  refine wp_lockFree ?_ fun w s hinv hr hidle hinv' => h _ ⟨hinv', ?_, hidle⟩ fun x hx => ?_
  · rw [ha.held]
    rfl
  · exact (ha.stable hr).setHeld _ _ _ _
  · exact hx.stable hr

/-- The end of a scan. -/
theorem safe_unlockScan {db : DB} {ptr : Option (List Byte × List Byte)} (hdb : db.Opened)
    (hs : Scanning fuel allowed p w₀)
    (hseen : ∀ key data, Scanner allowed p → ptr = some (key, data) → Seen fuel p key data w₀.hist)
    (hat : Scanner allowed p → AtRecord w₀.ghost.st pos.idx) :
    (outline fuel allowed).Wp p .nextrec (do
      let rc ← unLock .idx FREE_OFF 1
      errDumpIf (rc < 0) "db_nextrec: un_lock error"
      return (db, ptr)) pos w₀ fun v l' w' =>
        (outline fuel allowed).Safe p .nextrec (.ret (v.1, .record v.2)) l' w' := by
  refine (outline fuel allowed).wp_bind (wp_unlockFree (fun _ => hs.idle) ?_)
  intro w s hinv hr hinv'
  have hs' := hs.stable hinv hr
  refine (outline fuel allowed).wp_bind (wp_check (by decide) ?_)
  refine safe_apart hdb ?_ (Or.inr rfl) (fun key data hsc _ hres => ?_) fun hsc => ?_
  · have := hs'.apart.setHeld .free none (.unlck .idx FREE_OFF 1) s
    rwa [scanLocks_release] at this
  · have hres' : ptr = some (key, data) := by simpa using hres
    exact ((hseen key data hsc hres').stable hr).sys _ _ _ _
  · exact (hat hsc).stable hr

/-- db_nextrec of a process that only scans. -/
theorem safe_nextrec_scanner (hfuel : PTR_MAX < fuel) {db : DB} (hdb : db.Opened)
    (ha : Apart p .nextrec noLocks w₀) (hat : AtRecord w₀.ghost.st pos.idx) :
    (outline fuel allowed).Safe p .nextrec (opBody fuel .nextrec db) pos w₀ := by
  refine (outline fuel allowed).safe_of_wp ((outline fuel allowed).wp_bind
    ((outline fuel allowed).wp_bind (wp_lockScan ha ?_)))
  intro w₁ hs₁ hat₁
  refine (outline fuel allowed).wp_bind (wp_check (by decide) ?_)
  refine (outline fuel allowed).wp_bind (wp_nextrecLoop (hat₁ _ hat) ?_ ?_)
  · intro db₂ pos₂ w₂ hsame hinv₂ hr₂ hat₂
    refine (outline fuel allowed).wp_bind ?_
    rw [if_neg (by simp)]
    exact safe_unlockScan (hdb.of_sameChain hsame) (hs₁.stable hinv₂ hr₂)
      (fun _ _ _ h => nomatch h) fun _ => hat₂
  · intro db₂ a pos₂ w₂ hsame hinv₂ hr₂ ha₂ hkey hscan hat₂
    refine (outline fuel allowed).wp_bind ?_
    rw [if_pos rfl]
    refine (outline fuel allowed).wp_bind (wp_readdatScan hfuel (hs₁.stable hinv₂ hr₂) ha₂ hkey
      hscan ?_)
    intro data pos₃ w₃ hpos hs₃ hr₃ hseen
    refine safe_unlockScan ?_ hs₃ (fun key data' _ h => ?_) fun _ => ?_
    · exact hdb.of_sameChain hsame
    · simp only [Option.some.injEq, Prod.mk.injEq] at h
      obtain ⟨rfl, rfl⟩ := h
      exact hseen
    · rw [hpos]
      exact hat₂.stable hr₃

/-- db_nextrec of a process that does not only scan. -/
theorem safe_nextrec_other {db : DB} (hdb : db.Opened) (ha : Apart p .nextrec noLocks w₀)
    (hns : ¬ Scanner allowed p) :
    (outline fuel allowed).Safe p .nextrec (opBody fuel .nextrec db) pos w₀ := by
  have hfree : ∀ {w : DbWorld P}, Scanning fuel allowed p w → MayStop p w := fun hs => by
    refine hs.apart.hands.mayStop ?_
    rw [hs.apart.held, scanLocks_free]
    nofun
  refine (outline fuel allowed).safe_of_wp ((outline fuel allowed).wp_bind
    ((outline fuel allowed).wp_bind (wp_lockScan ha ?_)))
  intro w₁ hs₁ _
  refine (outline fuel allowed).wp_bind (wp_check (by decide) ?_)
  refine (outline fuel allowed).wp_bind (wp_readOnly (readOnly_nextrecLoop _ _) rfl hs₁.inv
    (hfree hs₁) ?_)
  rintro ⟨db₂, more⟩ pos₂ w₂ hinv₂ hr₂ hsame
  have hs₂ := hs₁.stable hinv₂ hr₂
  simp only
  refine (outline fuel allowed).wp_bind ?_
  split
  · refine (outline fuel allowed).wp_bind (wp_readOnly (readOnly_readdat _) rfl hs₂.inv (hfree hs₂)
      ?_)
    intro db₃ pos₃ w₃ hinv₃ hr₃ hsame₃
    refine safe_unlockScan ?_ (hs₂.stable hinv₃ hr₃) (fun _ _ h => absurd h hns) fun h => absurd h hns
    exact hdb.of_sameChain (hsame.trans hsame₃)
  · exact safe_unlockScan (hdb.of_sameChain hsame) hs₂ (fun _ _ h => absurd h hns)
      fun h => absurd h hns

end Apue.Db
