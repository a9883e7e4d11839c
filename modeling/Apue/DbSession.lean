import Apue.DbOutline

/-!
One process that creates a database and uses it alone. Its calls return what
the operations of a finite map return, and after every call the files have the
layout; no loop is cut off by its bound.
-/
namespace Apue.Db

open Programs Decimal ByteFiles Pointers Threads

/-- The operations, one after the other on the handle that db_open returned. -/
def useOpened (fuel : ℕ) (os : List Op) :
    Outcome DB × (Files × Pos) → Outcome (List Res × DB) × (Files × Pos)
  | (.ok db, t) => (machine fuel fun (_ : Unit) o => o.Ok).runAll fileCall os db t
  | (.aborted msg, t) => (.aborted msg, t)
  | (.diverged, t) => (.diverged, t)

/-- db_open with O_CREAT and O_TRUNC, where open(2) has emptied both files, and
then the operations. -/
def session (fuel : ℕ) (os : List Op) : Outcome (List Res × DB) × (Files × Pos) :=
  useOpened fuel os ((dbOpen true).run fileCall (⟨[], []⟩, ⟨0, 0⟩))

theorem session_eq (fuel : ℕ) (os : List Op) :
    session fuel os = (machine fuel fun (_ : Unit) o => o.Ok).runAll fileCall os openedHandle
      (createdFiles, ⟨967, 0⟩) :=
  congrArg (useOpened fuel os) dbOpen_create

section Ends

variable {α β : Type} {files : Files} {pos : Pos}

/-- Run alone the program leaves the files as they are and is not cut off, and
`post` holds if it returns. -/
def Ends (files : Files) : Prog sig α → Pos → (α → Pos → Prop) → Prop
  | .ret a, pos, post => post a pos
  | .abort _, _, _ => True
  | .diverge, _, _ => False
  | .call c k, pos, post => (fileCall c (files, pos)).2.1 = files ∧
      Ends files (k (fileCall c (files, pos)).1) (fileCall c (files, pos)).2.2 post

namespace Ends

theorem bind {prog : Prog sig α} {f : α → Prog sig β} {post : β → Pos → Prop}
    (h : Ends files prog pos fun a pos' => Ends files (f a) pos' post) :
    Ends files (prog >>= f) pos post := by
  induction prog generalizing pos with
  | ret a => exact h
  | abort msg => trivial
  | diverge => exact h
  | call c k ih => exact ⟨h.1, ih _ h.2⟩

theorem not_diverged {prog : Prog sig α} {post : α → Pos → Prop} (h : Ends files prog pos post)
    (t : Files × Pos) : prog.run fileCall (files, pos) ≠ (.diverged, t) := by
  induction prog generalizing pos with
  | ret a => simp [Prog.run]
  | abort msg => simp [Prog.run]
  | diverge => exact h.elim
  | call c k ih =>
    have hstate : (fileCall c (files, pos)).2 = (files, (fileCall c (files, pos)).2.2) :=
      Prod.ext h.1 rfl
    simp only [Prog.run]
    rw [hstate]
    exact ih _ h.2

theorem errDumpIf {cond : Prop} [Decidable cond] {msg : String} {post : Unit → Pos → Prop}
    (h : ¬ cond → post () pos) : Ends files (Db.errDumpIf cond msg) pos post := by
  unfold Db.errDumpIf
  split
  · trivial
  · exact h ‹_›

theorem seek {fd : Fd} {off : ℤ} {wh : Whence} {post : ℤ → Pos → Prop}
    (h : ∀ v pos', post v pos') : Ends files (lseek fd off wh) pos post := by
  refine ⟨?_, h _ _⟩
  simp only [fileCall]
  split <;> rfl

theorem seekCur {post : ℤ → Pos → Prop} (h : ∀ v, post v pos) :
    Ends files (lseek .idx 0 .seekCur) pos post := by
  have hcall : fileCall (.lseek .idx 0 .seekCur) (files, pos) = ((pos.idx : ℤ), files, pos) := by
    simp only [fileCall, seekBase, Pos.get, Int.add_zero,
      if_neg (not_lt.mpr (Int.natCast_nonneg _)), Int.toNat_natCast]
    rfl
  constructor
  · rw [hcall]
  · rw [hcall]
    exact h _

/-- A read that gives all the bytes it asks for does not go beyond the end. -/
theorem readIdx {k : ℕ} {post : List Byte → Pos → Prop}
    (h : ∀ bytes : List Byte, (bytes.length = k → 0 < k → pos.idx + k ≤ files.idx.length) →
      post bytes { pos with idx := pos.idx + bytes.length }) :
    Ends files (read .idx k) pos post := by
  refine ⟨rfl, h (readAt files.idx pos.idx k) fun hlen hk => ?_⟩
  simp only [readAt, List.length_take, List.length_drop] at hlen
  omega

theorem readDat {k : ℕ} {post : List Byte → Pos → Prop} (h : ∀ bytes pos', post bytes pos') :
    Ends files (read .dat k) pos post := ⟨rfl, h _ _⟩

end Ends

theorem ends_parseIdx (db : DB) (buf : List Byte) {post : DB → Pos → Prop}
    (h : ∀ db', post db' pos) : Ends files (parseIdx db buf) pos post := by
  unfold parseIdx
  split
  · trivial
  · split
    · trivial
    · refine Ends.bind (Ends.errDumpIf fun _ => Ends.bind (Ends.errDumpIf fun _ => ?_))
      exact Ends.bind (Ends.errDumpIf fun _ => h _)

/-- Each record that a scan reads takes it at least 17 bytes further. -/
theorem ends_readidx (db : DB) {post : DB × ℤ → Pos → Prop} (hend : ∀ db', post (db', -1) pos)
    (hnext : ∀ v pos', pos.idx + 17 ≤ pos'.idx → pos'.idx ≤ files.idx.length → post v pos') :
    Ends files (dbReadidx db 0) pos post := by
  unfold dbReadidx
  rw [if_pos rfl]
  refine Ends.bind (Ends.seekCur fun v => Ends.bind (Ends.errDumpIf fun _ => ?_))
  refine Ends.bind (Ends.readIdx fun head hhead => ?_)
  split
  · rename_i hnil
    rw [hnil.1]
    exact hend _
  · refine Ends.bind (Ends.errDumpIf fun hlen => Ends.bind (Ends.errDumpIf fun hidx => ?_))
    refine Ends.bind (Ends.readIdx fun buf hbuf => Ends.bind (Ends.errDumpIf fun hblen => ?_))
    refine Ends.bind (Ends.errDumpIf fun _ => Ends.bind (ends_parseIdx _ _ fun db' => ?_))
    have hh := not_not.mp hlen
    have hb : buf.length = sizeOfLong (atol (head.drop PTR_SZ)) := not_not.mp hblen
    have hmin : 6 ≤ buf.length := by
      have := not_lt.mp (not_or.mp hidx).1
      simp only [IDXLEN_MIN] at this
      omega
    have hle := hbuf hb (by omega)
    refine hnext _ _ ?_ ?_
    · simp only [hh, PTR_SZ, IDXLEN_SZ]
      omega
    · simp only [hb]
      exact hle

theorem ends_nextrecLoop {bound : ℕ} (db : DB) (hbound : files.idx.length < pos.idx + 17 * bound)
    (hpos : 0 < bound) {post : DB × Bool → Pos → Prop} (h : ∀ v pos', post v pos') :
    Ends files (nextrecLoop bound db) pos post := by
  induction bound generalizing db pos with
  | zero => omega
  | succ bound ih =>
    refine Ends.bind (ends_readidx db ?_ ?_)
    · intro db'
      simp only
      rw [if_pos (by decide)]
      exact h _ _
    · rintro ⟨db', v⟩ pos' hge hle
      simp only
      split
      · exact h _ _
      · split
        · exact ih db' (by omega) (by omega)
        · exact h _ _

/-- db_nextrec comes to an end, wherever it starts. -/
theorem ends_nextrec {fuel : ℕ} (db : DB) (hfuel : files.idx.length < 17 * fuel) :
    Ends files (opBody fuel .nextrec db) pos fun _ _ => True := by
  have hunlock : ∀ (v : DB × Option (List Byte × List Byte)) pos', Ends files (do
      let rc ← unLock .idx FREE_OFF 1
      errDumpIf (rc < 0) "db_nextrec: un_lock error"
      return v) pos' fun v' pos'' => Ends files (.ret (v'.1, Res.record v'.2)) pos''
        fun _ _ => True := fun v pos' =>
    Ends.bind ⟨rfl, Ends.bind (Ends.errDumpIf fun _ => trivial)⟩
  refine Ends.bind (Ends.bind ⟨rfl, Ends.bind (Ends.errDumpIf fun _ => ?_)⟩)
  refine Ends.bind (ends_nextrecLoop db (by omega) (by omega) ?_)
  rintro ⟨db', more⟩ pos'
  simp only
  refine Ends.bind ?_
  split
  · refine Ends.bind (Ends.bind (Ends.seek fun v pos₁ => ?_))
    refine Ends.bind (Ends.errDumpIf fun _ => Ends.bind (Ends.readDat fun bytes pos₂ => ?_))
    refine Ends.bind (Ends.errDumpIf fun _ => Ends.bind (Ends.errDumpIf fun _ => ?_))
    exact hunlock _ _
  · exact hunlock _ _

end Ends

section Alone

variable {fuel : ℕ}

/-- The calls of a process are granted and answered by the files while no other
process holds a lock. -/
theorem playedBy_fileCall {P : Type} [DecidableEq P] (allowed : P → Op → Prop) (p : P) :
    (machine fuel allowed).PlayedBy p fileCall fun t s pos =>
      t = (s.files, pos) ∧ ∀ q, q ≠ p → ∀ fd b, s.locks q fd b = none := by
  rintro c t s pos ⟨rfl, hfree⟩
  refine ⟨⟨(fileCall c (s.files, pos)).2.1, lockCall p c s.locks⟩,
    (fileCall c (s.files, pos)).2.2, ⟨?_, rfl, rfl⟩, rfl, fun q hq fd b => ?_⟩
  · cases c with
    | setlkw fd type start len =>
      intro q hq b _ t ht
      rw [hfree q hq] at ht
      cases ht
    | lseek fd off wh => trivial
    | read fd n => trivial
    | write fd bs => trivial
    | unlck fd start len => trivial
    | fstat fd => trivial
  · cases c with
    | setlkw fd' type start len => exact (if_neg fun h => hq h.1).trans (hfree q hq fd b)
    | unlck fd' start len => exact (if_neg fun h => hq h.1).trans (hfree q hq fd b)
    | lseek fd off wh => exact hfree q hq _ b
    | read fd n => exact hfree q hq _ b
    | write fd bs => exact hfree q hq _ b
    | fstat fd => exact hfree q hq _ b

/-- An index file with the layout is not longer than its pointers can reach. -/
theorem LayoutOf.length_idx {files : Files} {st : Store} {chain : ℕ → List ℕ} {free : List ℕ}
    (h : LayoutOf files st chain free) :
    files.idx.length ≤ PTR_MAX + (PTR_SZ + IDXLEN_SZ + IDXLEN_MAX) := by
  have hidx : files.idx = st.idxFile := by
    rw [h.text]
    rfl
  have hle : ∀ o ∈ st.offs, o ≤ PTR_MAX := by
    intro o ho
    by_cases hb : Blank (st.body o).key
    · exact h.ok.mem_linked_le h.linked_free ((h.mem_free o).mpr ⟨ho, hb⟩)
    · have hh := hashOf_lt (st.body o).key
      exact h.ok.mem_linked_le (h.linked_chain _ hh) ((h.mem_chain _ hh o).mpr ⟨ho, hb, rfl⟩)
  rw [hidx, h.ok.length_idxFile]
  have hplaced := h.ok.placed
  rcases List.eq_nil_or_concat' st.offs with hnil | ⟨pre, o, hoffs⟩
  · rw [hnil]
    simp only [endOf, List.map_nil, List.sum_nil]
    decide
  · have ho : o ∈ st.offs := hoffs ▸ List.mem_append_right _ List.mem_cons_self
    rw [hoffs] at hplaced ⊢
    have hend := (placed_append.mp hplaced).2.1
    have hmax := (h.ok.body_ok o ho).le_max
    have := hle o ho
    rw [endOf_append, ← hend]
    simp only [endOf, List.map_cons, List.map_nil, List.sum_cons, List.sum_nil,
      h.ok.length_recBlock ho]
    omega

/-- What is known after a session that was not stopped. -/
structure After (fuel : ℕ) (os : List Op) (rs : List Res) (files : Files)
    (w : DbWorld Unit) : Prop where
  inv : Inv fuel (fun _ o => o.Ok) w
  idle : ∃ db pos, IdleOk (fun _ o => o.Ok) () db pos w
  files : files = w.shared.files
  length : rs.length = os.length
  rets : Hist.rets w.hist = (os.zip rs).map fun a => ((), a.1, a.2)
  noExit : Hist.NoExit w.hist

variable {os : List Op} (hfuel : PTR_MAX < fuel) (hok : ∀ o ∈ os, o.Ok)
include hfuel hok

theorem session_after {rs : List Res} {db : DB} {files : Files} {pos : Pos}
    (hrun : session fuel os = (.ok (rs, db), files, pos)) : ∃ w, After fuel os rs files w := by
  rw [session_eq] at hrun
  obtain ⟨w, l, ext, hinv, hsim, hidle, hhist, hlen, hrets, hno⟩ :=
    (outline fuel fun (_ : Unit) o => o.Ok).runAll_ok (playedBy_fileCall _ ())
      (starts hfuel fun _ _ h => h) hok inv_initial (idle_initial ())
      ⟨rfl, fun _ _ _ _ => rfl⟩ hrun
  obtain ⟨rfl, rfl⟩ := Prod.mk.inj hsim.1
  rw [List.nil_append] at hhist
  exact ⟨w, hinv, ⟨db, _, hidle⟩, rfl, hlen, hhist ▸ hrets, hhist ▸ hno⟩

omit hfuel hok in
theorem After.layout {rs : List Res} {files : Files} {w : DbWorld Unit}
    (h : After fuel os rs files w) :
    LayoutOf files w.ghost.st w.ghost.chain w.ghost.free := by
  obtain ⟨db, pos, hidle⟩ := h.idle
  rw [h.files]
  exact h.inv.layout (fun _ => hidle.held) (fun _ => hidle.not_owned) (fun _ => hidle.not_made)

/-- No loop of a session is cut off. -/
theorem session_not_diverged : (session fuel os).1 ≠ .diverged := by
  intro hdiv
  rw [session_eq] at hdiv
  obtain ⟨o, db, pos, w, t, t', hmay, hinv, hidle, hsim, hrun⟩ :=
    (outline fuel fun (_ : Unit) o => o.Ok).runAll_diverged (playedBy_fileCall _ ())
      (starts hfuel fun _ _ h => h) hok inv_initial (idle_initial ())
      ⟨rfl, fun _ _ _ _ => rfl⟩ (Prod.ext hdiv rfl)
  obtain rfl : o = .nextrec := hmay
  obtain ⟨rfl, -⟩ := hsim
  have hlayout := hinv.layout (fun _ => hidle.held) (fun _ => hidle.not_owned)
    (fun _ => hidle.not_made)
  have hlen := hlayout.length_idx
  have hsize : w.shared.files.idx.length < 17 * fuel := by
    simp only [PTR_MAX, PTR_SZ, IDXLEN_SZ, IDXLEN_MAX] at hlen hfuel
    omega
  exact (ends_nextrec db hsize).not_diverged t' hrun

/-- After every call the files have the layout. -/
theorem session_layout : (session fuel os).1 ≠ .diverged ∧
    ∀ rs db files pos, session fuel os = (.ok (rs, db), files, pos) → Layout files := by
  refine ⟨session_not_diverged hfuel hok, fun rs db files pos hrun => ?_⟩
  obtain ⟨w, hw⟩ := session_after hfuel hok hrun
  exact ⟨_, _, _, hw.layout⟩

omit hfuel hok in
theorem session_layout_reuse :
    ∃ rs db files pos, session 10000000 [.keyed (.store [97] [120] DB_INSERT),
      .keyed (.delete [97]), .rewind, .nextrec, .keyed (.store [98] [121] DB_INSERT), .rewind,
      .nextrec, .nextrec] = (.ok (rs, db), files, pos) ∧ Layout files := by
  have ha : KeyOk [97] := keyOk_singleton (by decide) (by decide) (by decide)
  have hb : KeyOk [98] := keyOk_singleton (by decide) (by decide) (by decide)
  have hrun : (session 10000000 [.keyed (.store [97] [120] DB_INSERT),
      .keyed (.delete [97]), .rewind, .nextrec, .keyed (.store [98] [121] DB_INSERT), .rewind,
      .nextrec, .nextrec]).1.isOk = true := by
    decide +kernel
  generalize hsess : session 10000000 _ = result at hrun ⊢
  obtain ⟨out, files, pos⟩ := result
  obtain ⟨⟨rs, db⟩, rfl⟩ := Outcome.exists_of_isOk hrun
  exact ⟨rs, db, files, pos, rfl, (session_layout (by decide)
    (by simp [Op.Ok, KeyOp.Ok, ha, hb])).2 rs db files pos hsess⟩

end Alone

section Map

/-- The answers to operations on keys, from the answers to all operations. -/
theorem answers_eq_rets (hist : DbHist Unit) :
    answers hist () = (Hist.rets hist).filterMap fun a => match a.2.1 with
      | .keyed o => some (o, a.2.2)
      | _ => none := by
  rw [answers, Hist.rets, List.filterMap_filterMap]
  refine List.filterMap_congr fun e _ => ?_
  obtain ⟨e, s⟩ := e
  cases e with
  | ret q o r => cases o <;> rfl
  | call q o => rfl
  | sys q o c => rfl
  | exit q o => rfl

theorem answers_zip (ops : List KeyOp) (rs : List Res) :
    (((ops.map Op.keyed).zip rs).map fun a => ((), a.1, a.2)).filterMap
      (fun a : Unit × Op × Res => match a.2.1 with
        | .keyed o => some (o, a.2.2)
        | _ => none) = ops.zip rs := by
  induction ops generalizing rs with
  | nil => rfl
  | cons o ops ih =>
    cases rs with
    | nil => rfl
    | cons r rs => exact congrArg ((o, r) :: ·) (ih rs)

theorem serialAnswers_unit (l : List (Unit × KeyOp)) :
    serialAnswers l () =
      (l.map Prod.snd).zip (mapRun (fun _ => none) (l.map Prod.snd)) := by
  rw [← serialRun_answers, serialAnswers, ← List.filterMap_eq_map]
  exact List.filterMap_congr fun a _ => if_pos rfl

variable {fuel : ℕ}

/-- The answers of a session that was not stopped. -/
theorem session_answers (hfuel : PTR_MAX < fuel) {ops : List KeyOp} (hok : ∀ o ∈ ops, o.Ok)
    {rs : List Res} {db : DB} {t : Files × Pos}
    (hrun : session fuel (ops.map .keyed) = (.ok (rs, db), t)) :
    rs = mapRun (fun _ => none) ops := by
  obtain ⟨w, hw⟩ := session_after hfuel (fun o ho => by
    obtain ⟨k, hk, rfl⟩ := List.mem_map.mp ho
    exact hok k hk) hrun
  obtain ⟨db', pos, hidle⟩ := hw.idle
  have hserial := (hw.inv.serial hw.noExit).2 ()
  rw [hidle.expect, serialAnswers_unit, answers_eq_rets, hw.rets, answers_zip] at hserial
  have hlen : rs.length = ops.length := hw.length.trans (List.length_map _)
  generalize (lockOrder w.hist).map Prod.snd = l at hserial
  simp only [Option.toList_none, List.append_nil] at hserial
  have hfst := congrArg (List.map Prod.fst) hserial
  rw [List.map_fst_zip (length_mapRun _ l).ge, List.map_fst_zip hlen.ge] at hfst
  have hsnd := congrArg (List.map Prod.snd) hserial
  rw [List.map_snd_zip (length_mapRun _ l).le, List.map_snd_zip hlen.le, hfst] at hsnd
  exact hsnd.symm

/-- Every call of a session returns what a finite map returns. -/
theorem session_refines_map (hfuel : PTR_MAX < fuel) {ops : List KeyOp} (hok : ∀ o ∈ ops, o.Ok) :
    (session fuel (ops.map .keyed)).1 ≠ .diverged ∧
      ∀ rs db t, session fuel (ops.map .keyed) = (.ok (rs, db), t) →
        rs = mapRun (fun _ => none) ops := by
  refine ⟨session_not_diverged hfuel fun o ho => ?_, fun rs db t => session_answers hfuel hok⟩
  obtain ⟨k, hk, rfl⟩ := List.mem_map.mp ho
  exact hok k hk

/-- A session that stores, replaces, deletes and reuses a record. -/
theorem session_refines_map_reuse :
    ∃ db t, session 10000000 ([.store [97] [120] DB_INSERT, .store [97] [121] DB_INSERT,
        .fetch [97], .store [97] [121, 122] DB_REPLACE, .store [98] [120] DB_STORE, .delete [97],
        .delete [97], .fetch [97], .fetch [98]].map .keyed) =
      (.ok ([.code 0, .code 1, .data (some [120]), .code 0, .code 0, .code 0, .code (-1),
        .data none, .data (some [120])], db), t) := by
  have ha : KeyOk [97] := keyOk_singleton (by decide) (by decide) (by decide)
  have hb : KeyOk [98] := keyOk_singleton (by decide) (by decide) (by decide)
  have hrun : (session 10000000 ([.store [97] [120] DB_INSERT, .store [97] [121] DB_INSERT,
        .fetch [97], .store [97] [121, 122] DB_REPLACE, .store [98] [120] DB_STORE, .delete [97],
        .delete [97], .fetch [97], .fetch [98]].map .keyed)).1.isOk = true := by
    decide +kernel
  generalize hsess : session 10000000 _ = result at hrun ⊢
  obtain ⟨out, t⟩ := result
  obtain ⟨⟨rs, db⟩, rfl⟩ := Outcome.exists_of_isOk hrun
  have hrs := (session_refines_map (by decide) (by simp [KeyOp.Ok, ha, hb])).2 rs db t hsess
  exact ⟨db, t, by rw [hrs]; rfl⟩

end Map

end Apue.Db
