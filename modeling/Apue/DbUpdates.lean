import Apue.DbAlone
import Apue.DbModel

/-!
The functions that write, run alone on the text of a store. Each write is one
update of the store, so the files that a process leaves when it is stopped are
those of a store again. What db_store and db_delete can do is stated once, as
the stores they go through.
-/
namespace Apue.Db

open Programs Decimal ByteFiles Pointers

variable {fuel : ℕ} {st : Store} {key data : List Byte} {o : ℕ} {format : List Byte → Option String}

theorem runs_write (fd : Fd) (bytes : List Byte) (files : Files) (pos : Pos) :
    Runs (write fd bytes) (files, pos) [files] (.ok (bytes.length : ℤ))
      (files.set fd (writeAt (files.get fd) (pos.get fd) bytes),
        pos.set fd (pos.get fd + bytes.length)) := ⟨rfl, rfl⟩

theorem runs_seekEnd (fd : Fd) (files : Files) (pos : Pos) :
    Runs (lseek fd 0 .seekEnd) (files, pos) [] (.ok ((files.get fd).length : ℤ))
      (files, pos.set fd (files.get fd).length) := by
  refine Runs.call rfl ?_
  simp only [fileCall, seekBase, Int.add_zero, if_neg (not_lt.mpr (Int.natCast_nonneg _)),
    Int.toNat_natCast]

/-- A text of admissible length is formatted without an end of the process. -/
def FormatOk (format : List Byte → Option String) : Prop :=
  ∀ text, text.length ≤ IDXLEN_MAX → format text = none

theorem formatOk_unchecked : FormatOk unchecked := fun _ _ => rfl

theorem runs_sprintfIdx {text : List Byte} (h : format text = none) (s : Files × Pos) :
    Runs (sprintfIdx format text) s [] (.ok ()) s := by
  unfold sprintfIdx
  rw [h]
  exact Runs.ret () s

section Writes

theorem goes_writeptr (hs : st.Sized) {c v : ℕ} (hc : st.IsCell c) (hv : v ≤ PTR_MAX) (pos : Pos) :
    Goes (dbWriteptr c v) (st.files, pos) [st.files] (.ok ()) (st.setPtr c v).files := by
  have hlen := length_ptrText hv
  have hfiles : st.files.set .idx (writeAt (st.files.get .idx) c (ptrText v)) =
      (st.setPtr c v).files := congrArg (Files.mk · _) (hs.write_setPtr hv hc)
  refine ⟨{ pos with idx := c + (ptrText v).length }, ?_⟩
  rw [← hfiles]
  unfold dbWriteptr
  refine (Runs.check (by omega) _).next ?_
  simp only [decimalInt_natCast]
  refine (runs_seekSet _ _).next ((Runs.check (by omega) _).next ?_)
  exact (runs_write .idx (ptrText v) _ _).bind (Runs.check (by simp [hlen]) _)

theorem goes_writeptr_far {c v : ℕ} (hv : PTR_MAX < v) (files : Files) (pos : Pos) :
    Goes (dbWriteptr c v) (files, pos) [] (.aborted "_db_writeptr: invalid ptr: %d") files :=
  (Goes.stop (by omega) _ _).bind_aborted

variable (hok : st.Ok)
include hok

/-- _db_writedat over an existing data record. -/
theorem goes_writedatSet {d : ℕ} (hd : d ∈ st.doffs) (hlen : data.length = (st.dat d).length)
    (db : DB) (pos : Pos) :
    Goes (dbWritedat db data d .seekSet) (st.files, pos) [st.files]
      (.ok { db with datoff := d, datlen := data.length + 1 }) (st.setDat d data).files := by
  have hfiles : st.files.set .dat (writeAt (st.files.get .dat) d (data ++ [NEWLINE])) =
      (st.setDat d data).files := congrArg (Files.mk _) (hok.write_setDat hd hlen)
  refine ⟨{ pos with dat := d + (data ++ [NEWLINE]).length }, ?_⟩
  rw [← hfiles]
  unfold dbWritedat
  refine (Runs.ret () _).next ((runs_seekSet _ _).next ((Runs.check (by omega) _).next ?_))
  refine (runs_write .dat (data ++ [NEWLINE]) _ _).bind ((Runs.check (by simp) _).next ?_)
  exact (Runs.ret () _).next (Runs.ret _ _)

/-- _db_writedat at the end of the data file. -/
theorem goes_writedatEnd (db : DB) (pos : Pos) :
    Goes (dbWritedat db data 0 .seekEnd) (st.files, pos) [st.files]
      (.ok { db with datoff := st.datFile.length, datlen := data.length + 1 })
      (st.addDat data).files := by
  have hfiles : st.files.set .dat
      (writeAt (st.files.get .dat) st.datFile.length (data ++ [NEWLINE])) =
      (st.addDat data).files := congrArg (Files.mk _) hok.write_addDat
  refine ⟨{ pos with dat := st.datFile.length + (data ++ [NEWLINE]).length }, ?_⟩
  rw [← hfiles]
  unfold dbWritedat
  refine ((Runs.lock _ _ _ _ _).next (Runs.check (by decide) _)).next ?_
  refine (runs_seekEnd _ _ _).next ((Runs.check (by omega) _).next ?_)
  refine (runs_write .dat (data ++ [NEWLINE]) _ _).bind ((Runs.check (by simp) _).next ?_)
  exact ((Runs.unlock _ _ _ _).next (Runs.check (by decide) _)).next (Runs.ret _ _)

/-- _db_writeidx over an existing index record. -/
theorem goes_writeidxSet (hformat : FormatOk format) (db : DB) {v : ℕ} {b : Body} (ho : o ∈ st.offs)
    (hv : v ≤ PTR_MAX) (hlen : b.text.length = (st.body o).text.length)
    (hdatoff : db.datoff = b.datoff) (hdatlen : db.datlen = b.datlen) (pos : Pos) :
    Goes (dbWriteidxWith format db b.key o .seekSet v) (st.files, pos) [st.files]
      (.ok { db with ptrval := v, idxbuf := b.text, idxoff := o }) (st.setRec o v b).files := by
  have hfiles : st.files.set .idx (writeAt (st.files.get .idx) o (recText v b)) =
      (st.setRec o v b).files := congrArg (Files.mk · _) (hok.write_setRec ho hv hlen)
  have htext : idxText b.key db.datoff db.datlen = b.text := by
    rw [hdatoff, hdatlen, Body.text]
  have hmin := hlen ▸ (hok.body_ok o ho).min_le
  have hmax := hlen ▸ (hok.body_ok o ho).le_max
  have hrec := length_recText hv hmax
  refine ⟨{ pos with idx := o + (recText v b).length }, ?_⟩
  rw [← hfiles]
  unfold dbWriteidxWith
  simp only [htext]
  refine (Runs.check (by omega) _).next ((runs_sprintfIdx (hformat _ hmax) _).next ?_)
  refine (Runs.check (by omega) _).next ?_
  refine (Runs.ret () _).next ((runs_seekSet _ _).next ((Runs.check (by omega) _).next ?_))
  refine (runs_write .idx (recText v b) _ _).bind ?_
  refine (Runs.check (by rw [hrec]; push_cast; omega) _).next ?_
  exact (Runs.ret () _).next (Runs.ret _ _)

/-- _db_writeidx at the end of the index file. -/
theorem goes_writeidxEnd (hformat : FormatOk format) (db : DB) {v : ℕ} {b : Body} (hv : v ≤ PTR_MAX)
    (hmin : IDXLEN_MIN ≤ b.text.length) (hmax : b.text.length ≤ IDXLEN_MAX)
    (hdatoff : db.datoff = b.datoff) (hdatlen : db.datlen = b.datlen) (pos : Pos) :
    Goes (dbWriteidxWith format db b.key 0 .seekEnd v) (st.files, pos) [st.files]
      (.ok { db with ptrval := v, idxbuf := b.text, idxoff := st.idxFile.length })
      (st.addRec v b).files := by
  have hfiles : st.files.set .idx (writeAt (st.files.get .idx) st.idxFile.length (recText v b)) =
      (st.addRec v b).files := congrArg (Files.mk · _) hok.write_addRec
  have htext : idxText b.key db.datoff db.datlen = b.text := by
    rw [hdatoff, hdatlen, Body.text]
  have hrec := length_recText hv hmax
  refine ⟨{ pos with idx := st.idxFile.length + (recText v b).length }, ?_⟩
  rw [← hfiles]
  unfold dbWriteidxWith
  simp only [htext]
  refine (Runs.check (by omega) _).next ((runs_sprintfIdx (hformat _ hmax) _).next ?_)
  refine (Runs.check (by omega) _).next ?_
  refine ((Runs.lock _ _ _ _ _).next (Runs.check (by decide) _)).next ?_
  refine (runs_seekEnd _ _ _).next ((Runs.check (by omega) _).next ?_)
  refine (runs_write .idx (recText v b) _ _).bind ?_
  refine (Runs.check (by rw [hrec]; push_cast; omega) _).next ?_
  exact ((Runs.unlock _ _ _ _).next (Runs.check (by decide) _)).next (Runs.ret _ _)

omit hok in
/-- A record that is too short or too long stops the process before it is written. -/
theorem goes_writeidx_misfit (db : DB) {v : ℕ} {b : Body} (hv : v ≤ PTR_MAX)
    (hbad : b.text.length < IDXLEN_MIN ∨ b.text.length > IDXLEN_MAX) (hdatoff : db.datoff = b.datoff)
    (hdatlen : db.datlen = b.datlen) (files : Files) (pos : Pos) :
    Goes (dbWriteidxWith format db b.key 0 .seekEnd v) (files, pos) []
      (.aborted ((format b.text).getD "_db_writeidx: invalid length")) files := by
  have htext : idxText b.key db.datoff db.datlen = b.text := by
    rw [hdatoff, hdatlen, Body.text]
  unfold dbWriteidxWith
  simp only [htext]
  refine (Goes.check (by omega) _ _).next fun pos₁ => ?_
  cases hf : format b.text with
  | none =>
    exact Goes.of_read (runs_sprintfIdx hf _) ((Goes.stop hbad _ _).bind_aborted)
  | some msg =>
    rw [sprintfIdx, hf]
    exact ⟨pos₁, rfl, rfl⟩

end Writes

/-!
The deletion of the record `o`, write by write: its data is overwritten, then
its key and its pointer, the free list is made to start with it, and the cell
`c` before it on its chain is given the pointer that it had.
-/

section Deletion

def Store.dataWiped (st : Store) (o : ℕ) : Store :=
  st.setDat (st.body o).datoff (List.replicate ((st.body o).datlen - 1) SPACE)

def Store.recWiped (st : Store) (o : ℕ) : Store :=
  (st.dataWiped o).setRec o (st.ptr FREE_OFF)
    ((st.body o).rekey (List.replicate (st.body o).key.length SPACE))

def Store.freed (st : Store) (o : ℕ) : Store := (st.recWiped o).setPtr FREE_OFF o

def Store.unlinked (st : Store) (o c : ℕ) : Store := (st.freed o).setPtr c (st.ptr o)

theorem plain_blanks (n : ℕ) : Body.Plain (List.replicate n SPACE) := by
  intro c hc
  rw [List.eq_of_mem_replicate hc]
  decide

variable (hok : st.Ok)
include hok

theorem Store.Ok.dataWiped (hd : st.HasData o) : (st.dataWiped o).Ok := by
  refine hok.setDat hd.mem (fun c hc => ?_) ?_
  · rw [List.eq_of_mem_replicate hc]
    decide
  · rw [List.length_replicate, hd.len, Nat.add_sub_cancel]

theorem Store.Ok.rekeyed (ho : o ∈ st.offs) :
    ((st.body o).rekey (List.replicate (st.body o).key.length SPACE)).Ok :=
  (hok.body_ok o ho).rekey (plain_blanks _) List.length_replicate

theorem Store.Ok.recWiped (ho : o ∈ st.offs) (hd : st.HasData o) : (st.recWiped o).Ok :=
  (hok.dataWiped hd).setRec ho (hok.ptr_le _) (hok.rekeyed ho)
    (Body.length_text_rekey _ List.length_replicate)

theorem Store.Ok.freed (ho : o ∈ st.offs) (hd : st.HasData o) (hle : o ≤ PTR_MAX) :
    (st.freed o).Ok := (hok.recWiped ho hd).setPtr hle

theorem Store.Ok.unlinked (ho : o ∈ st.offs) (hd : st.HasData o) (hle : o ≤ PTR_MAX) (c : ℕ) :
    (st.unlinked o c).Ok := (hok.freed ho hd hle).setPtr (hok.ptr_le o)

theorem goes_dodelete (hformat : FormatOk format) {db : DB} {c : ℕ} (ho : o ∈ st.offs)
    (hd : st.HasData o) (hle : o ≤ PTR_MAX) (hc : st.IsCell c)
    (hloc : db.Located o (st.ptr o) (st.body o)) (hptroff : db.ptroff = c) (pos : Pos) :
    ∃ db', db.SameChain db' ∧ db'.datbuf = List.replicate ((st.body o).datlen - 1) SPACE ∧
      Goes (dbDodeleteWith format db) (st.files, pos)
        [st.files, (st.dataWiped o).files, (st.recWiped o).files, (st.freed o).files] (.ok db')
        (st.unlinked o c).files := by
  have hok₁ := hok.dataWiped hd
  have hok₂ := hok.recWiped ho hd
  have hok₃ := hok.freed ho hd hle
  have hlen : (List.replicate ((st.body o).datlen - 1) SPACE).length =
      (st.dat (st.body o).datoff).length := by
    rw [List.length_replicate, hd.len, Nat.add_sub_cancel]
  have hdatlen : (List.replicate ((st.body o).datlen - 1) SPACE).length + 1 =
      (st.body o).datlen := by rw [hlen, hd.len]
  refine ⟨{ db with
    datbuf := List.replicate ((st.body o).datlen - 1) SPACE
    idxbuf := ((st.body o).rekey (List.replicate (st.body o).key.length SPACE)).text
    idxoff := o
    datoff := (st.body o).datoff
    datlen := (List.replicate ((st.body o).datlen - 1) SPACE).length + 1
    ptrval := st.ptr FREE_OFF }, ⟨rfl, rfl, rfl⟩, rfl, ?_⟩
  unfold dbDodeleteWith
  simp only [hloc.datlen, hloc.idxbuf, hloc.datoff]
  refine (Goes.lock _ _ _ _ _ _).next fun _ => (Goes.check (by decide) _ _).next fun _ => ?_
  refine (goes_writedatSet hok hd.mem hlen _ _).bind fun pos₁ => ?_
  refine Goes.next (goes_readptr hok₁ (Or.inl free_mem_heads) pos₁) fun pos₂ => ?_
  simp only [hloc.idxoff, hloc.ptrval]
  refine (goes_writeidxSet hok₁ hformat { db with
    datbuf := List.replicate ((st.body o).datlen - 1) SPACE
    idxbuf := List.replicate (st.body o).key.length SPACE
    datoff := (st.body o).datoff
    datlen := (List.replicate ((st.body o).datlen - 1) SPACE).length + 1 } ho (hok.ptr_le FREE_OFF)
    (Body.length_text_rekey _ List.length_replicate) rfl hdatlen pos₂).bind
    fun pos₃ => ?_
  refine Goes.bind (goes_writeptr hok₂.toSized (Or.inl free_mem_heads) hle pos₃) fun pos₄ => ?_
  simp only [hptroff]
  refine Goes.bind (goes_writeptr hok₃.toSized hc (hok.ptr_le o) pos₄) fun pos₅ => ?_
  refine (Goes.unlock _ _ _ _ _).next fun pos₆ => ?_
  exact (Goes.check (by decide) _ _).next fun pos₇ => Goes.ret _ _ _

end Deletion

/-- The handle stands at the index record `o`, which has the key. -/
structure DB.StandsAt (db : DB) (st : Store) (key : List Byte) (o : ℕ) : Prop where
  mem : o ∈ st.offs
  pos : 0 < o
  key : (st.body o).key = key
  idxoff : db.idxoff = o
  datoff : db.datoff = (st.body o).datoff
  datlen : db.datlen = (st.body o).datlen

/-- The handle that a program returns, if it does, is one that db_open makes, and after
a success it stands at the record of the key. -/
def Usable (fin : Store) (key : List Byte) (out : Outcome (DB × ℤ)) : Prop :=
  ∀ v, out = .ok v → v.1.Opened ∧ (v.2 = 0 → ∃ o, v.1.StandsAt fin key o)

theorem usable_refused {fin : Store} {v : DB × ℤ} (hdb : v.1.Opened) (hrc : v.2 ≠ 0) :
    Usable fin key (.ok v) := by
  intro w he
  rw [← Outcome.ok.inj he]
  exact ⟨hdb, fun hzero => absurd hzero hrc⟩

theorem usable_done {fin : Store} {v : DB × ℤ} (hdb : v.1.Opened) (h : v.1.StandsAt fin key o) :
    Usable fin key (.ok v) := by
  intro w he
  rw [← Outcome.ok.inj he]
  exact ⟨hdb, fun _ => ⟨o, h⟩⟩

/-- A call that has succeeded. -/
def Succeeds (out : Outcome (DB × ℤ)) : Prop := ∃ db, out = .ok (db, 0)

section Append

/-- The index record that an append writes. -/
def Store.newBody (st : Store) (key data : List Byte) : Body :=
  ⟨key, st.datFile.length, data.length + 1⟩

/-- An append of a record that is to stand before the pointer `v` on the list that
starts in the cell `c`: the stores it goes through, the one it ends with, and
whether it succeeds. -/
inductive Appends (st : Store) (c v : ℕ) (key data : List Byte) : List Store → Store → Bool → Prop
  | short (hshort : (st.newBody key data).text.length < IDXLEN_MIN) :
    Appends st c v key data [st] (st.addDat data) false
  | long (hlong : IDXLEN_MAX < (st.newBody key data).text.length) :
    Appends st c v key data [st] (st.addDat data) false
  | far (hlen : (st.newBody key data).text.length ≤ IDXLEN_MAX)
    (hfar : PTR_MAX < st.idxFile.length) :
    Appends st c v key data [st, st.addDat data]
      ((st.addDat data).addRec v (st.newBody key data)) false
  | linked (hlen : (st.newBody key data).text.length ≤ IDXLEN_MAX)
    (hnear : st.idxFile.length ≤ PTR_MAX) :
    Appends st c v key data
      [st, st.addDat data, (st.addDat data).addRec v (st.newBody key data)]
      (((st.addDat data).addRec v (st.newBody key data)).setPtr c st.idxFile.length) true

theorem Store.newBody_min_le (hkey : key ≠ []) :
    IDXLEN_MIN ≤ (st.newBody key data).text.length := by
  have hk := List.length_pos_iff.mpr hkey
  have h₁ := length_decimal_pos st.datFile.length
  have h₂ := length_decimal_pos (data.length + 1)
  rw [Body.length_text]
  simp only [Store.newBody, IDXLEN_MIN]
  omega

theorem Store.newBody_ok (hkey : KeyOk key) (hdata : data.length + 1 ≤ DATLEN_MAX)
    (hlen : (st.newBody key data).text.length ≤ IDXLEN_MAX) : (st.newBody key data).Ok where
  plain := hkey.plain
  min_le := newBody_min_le hkey.nonempty
  le_max := hlen
  datlen_pos := Nat.succ_pos _
  datlen_le := hdata

/-- The message with which an append ends the process, if it does. -/
def Store.appendStop (st : Store) (format : List Byte → Option String) (key data : List Byte) :
    Option String :=
  if (st.newBody key data).text.length < IDXLEN_MIN ∨
      (st.newBody key data).text.length > IDXLEN_MAX then
    some ((format (st.newBody key data).text).getD "_db_writeidx: invalid length")
  else if PTR_MAX < st.idxFile.length then some "_db_writeptr: invalid ptr: %d"
  else none

/-- The end of db_store that both appends have; only the counters differ. -/
theorem goes_append (hok : st.Ok) (hformat : FormatOk format) (hdata : ∀ c ∈ data, c ≠ 0) {c v : ℕ}
    (hc : st.IsCell c) (hv : v ≤ PTR_MAX) {db : DB} (hdb : db.chainoff = c) (hopened : db.Opened)
    {f : DB → DB} (hf : ∀ db, ∃ cnt, f db = { db with cnt := cnt }) (pos : Pos) :
    ∃ log fin done out, Appends st c v key data log fin done ∧
      Goes (do
        let db ← dbWritedat db data 0 .seekEnd
        let db ← dbWriteidxWith format db key 0 .seekEnd v
        dbWriteptr db.chainoff db.idxoff
        return (f db, (0 : ℤ))) (st.files, pos) (log.map Store.files) out fin.files ∧
      (Succeeds out ↔ done = true) ∧ Usable fin key out ∧
      out.EndsWith (st.appendStop format key data) := by
  have hok₁ := hok.addDat hdata
  rw [Store.appendStop]
  by_cases hbad : (st.newBody key data).text.length < IDXLEN_MIN ∨
      (st.newBody key data).text.length > IDXLEN_MAX
  · rw [if_pos hbad]
    have happ : Appends st c v key data [st] (st.addDat data) false := hbad.elim .short .long
    refine ⟨_, _, _, .aborted _, happ, ?_, iff_of_false nofun nofun, nofun, rfl⟩
    refine (goes_writedatEnd hok db pos).bind fun pos₁ => ?_
    exact (goes_writeidx_misfit _ hv hbad rfl rfl _ pos₁).bind_aborted
  · rw [if_neg hbad]
    obtain ⟨hmin, hmax⟩ := not_or.mp hbad
    have hmax := not_lt.mp hmax
    have hs := hok₁.addRec_sized (b := st.newBody key data) hv
    by_cases hfar : PTR_MAX < st.idxFile.length
    · rw [if_pos hfar]
      refine ⟨_, _, _, .aborted _, .far hmax hfar, ?_, iff_of_false nofun nofun, nofun, rfl⟩
      refine (goes_writedatEnd hok db pos).bind fun pos₁ => ?_
      refine (goes_writeidxEnd hok₁ hformat _ hv (not_lt.mp hmin) hmax rfl rfl pos₁).bind
        fun pos₂ => ?_
      exact (goes_writeptr_far hfar _ pos₂).bind_aborted
    · rw [if_neg hfar]
      have hnear := not_lt.mp hfar
      refine ⟨_, _, _, .ok (f { db with
        datoff := st.datFile.length
        datlen := data.length + 1
        ptrval := v
        idxbuf := (st.newBody key data).text
        idxoff := st.idxFile.length }, 0), .linked hmax hnear, ?_, iff_of_true ⟨_, rfl⟩ rfl, ?_, rfl⟩
      · refine (goes_writedatEnd hok db pos).bind fun pos₁ => ?_
        refine (goes_writeidxEnd hok₁ hformat _ hv (not_lt.mp hmin) hmax rfl rfl pos₁).bind
          fun pos₂ => ?_
        simp only [hdb]
        exact Goes.bind (goes_writeptr hs (hc.imp_right (List.mem_append_left _)) hnear pos₂)
          fun pos₃ => Goes.ret _ _ _
      · have hself : (((st.addDat data).addRec v (st.newBody key data)).setPtr c
            st.idxFile.length).body st.idxFile.length = st.newBody key data :=
          Function.update_self ..
        have hge := hok.new_off_ge
        obtain ⟨cnt, he⟩ := hf { db with
          datoff := st.datFile.length
          datlen := data.length + 1
          ptrval := v
          idxbuf := (st.newBody key data).text
          idxoff := st.idxFile.length }
        rw [he]
        refine @usable_done key st.idxFile.length _ _ hopened ?_
        refine { mem := List.mem_append_right _ List.mem_cons_self, pos := by omega, key := ?_,
                 idxoff := rfl, datoff := ?_, datlen := ?_ }
        · rw [hself]
          rfl
        · rw [hself]
          rfl
        · rw [hself]
          rfl

end Append

section Reuse

/-- The record has the sizes of a key and of data. -/
def Body.Fits (b : Body) (key data : List Byte) : Prop :=
  b.key.length = key.length ∧ b.datlen = data.length + 1

variable {free pre : List ℕ} {a : ℕ}

/-- _db_findfree takes the first deleted record of the right sizes off the free
list. -/
theorem goes_findfree (hfuel : PTR_MAX < fuel) (hok : st.Ok)
    (hfree : Linked st.ptr FREE_OFF free) (hnodup : free.Nodup) (hmem : ∀ o ∈ free, o ∈ st.offs)
    (db : DB) (key data : List Byte) (pos : Pos) :
    (∃ db', db.SameChain db' ∧ db'.datbuf = db.datbuf ∧
      (∀ a ∈ free, ¬ (st.body a).Fits key data) ∧
      Goes (dbFindfree fuel db key.length (data.length + 1)) (st.files, pos) [] (.ok (db', -1))
        st.files) ∨
    ∃ db' pre a rest, db.SameChain db' ∧ db'.datbuf = db.datbuf ∧ free = pre ++ a :: rest ∧
      (st.body a).Fits key data ∧ db'.Located a (st.ptr a) (st.body a) ∧
      Goes (dbFindfree fuel db key.length (data.length + 1)) (st.files, pos) [st.files]
        (.ok (db', 0)) (st.setPtr (lastCell FREE_OFF pre) (st.ptr a)).files := by
  have hlen := hok.length_linked_le hfree hnodup hmem
  have hloop : ReadWp st.known (do
      let offset ← dbReadptr FREE_OFF
      findfreeLoop fuel db key.length (data.length + 1) FREE_OFF offset) pos fun v _ =>
        db.SameChain v.1 ∧ ((v.2.1 = 0 ∧ ∀ a ∈ free, ¬ (st.body a).Fits key data) ∨
          ∃ pre a rest, free = pre ++ a :: rest ∧ (st.body a).Fits key data ∧
            v.1.Located a (st.ptr a) (st.body a) ∧ v.2 = ((a : ℤ), (lastCell FREE_OFF pre : ℤ))) := by
    refine ReadWp.bind (readWp_readptr (hok.ptr_le _)
      (hok.contains_ptr (Or.inl free_mem_heads)) fun pos₁ => ?_)
    refine readWp_findfreeLoop st.body key.length (data.length + 1) (by omega) hfree
      (fun o ho => hok.hasRec (hmem o ho)) ?_ ?_
    · intro pre a rest db' pos' hl hkey hdat hsame hloc
      exact ⟨hsame, Or.inr ⟨pre, a, rest, hl, ⟨hkey, hdat⟩, hloc, rfl⟩⟩
    · intro db' save pos' hmiss hsame
      exact ⟨hsame, Or.inl ⟨rfl, hmiss⟩⟩
  obtain ⟨⟨db', off, save⟩, pos', hruns, hsame, hcases⟩ := hloop.runs fun _ _ _ hk => hk
  have hbuf : db'.datbuf = db.datbuf :=
    ((Prog.returns_true (dbReadptr FREE_OFF)).bind fun offset _ =>
      returns_findfreeLoop fuel db _ _ _ offset).of_run hruns.run
  -- what follows the loop decides about the whole call
  have hcall : ∀ {log out files}, Goes (do
      let result ← (if off = 0 then return -1 else do
        dbWriteptr save db'.ptrval
        return 0 : Prog sig ℤ)
      let rc ← unLock .idx FREE_OFF 1
      errDumpIf (rc < 0) "_db_findfree: un_lock error"
      return (db', result)) (st.files, pos') log out files →
      Goes (dbFindfree fuel db key.length (data.length + 1)) (st.files, pos) log out files := by
    rintro log out files ⟨pos₂, hrest⟩
    refine ⟨pos₂, (Runs.lock _ _ _ _ _).next ((Runs.check (by decide) _).next ?_)⟩
    rw [← Prog.bind_assoc]
    exact hruns.next hrest
  rcases hcases with ⟨hoff, hmiss⟩ | ⟨pre, a, rest, hl, hfit, hloc, hv⟩
  · refine Or.inl ⟨db', hsame, hbuf, hmiss, hcall ?_⟩
    rw [if_pos hoff]
    refine (Goes.ret _ _ _).next fun _ => (Goes.unlock _ _ _ _ _).next fun _ => ?_
    exact (Goes.check (by decide) _ _).next fun _ => Goes.ret _ _ _
  · obtain ⟨rfl, rfl⟩ := Prod.mk.inj hv
    have ha : a ∈ free := hl ▸ List.mem_append_right _ List.mem_cons_self
    have hge := (hok.off_bounds (hmem a ha)).1
    have hcell : st.IsCell (lastCell FREE_OFF pre) := by
      rcases List.mem_cons.mp (lastCell_mem FREE_OFF pre) with he | hin
      · exact Or.inl (he.symm ▸ free_mem_heads)
      · exact Or.inr (hmem _ (hl ▸ List.mem_append_left _ hin))
    refine Or.inr ⟨db', pre, a, rest, hsame, hbuf, hl, hfit, hloc, hcall ?_⟩
    rw [if_neg (by omega), hloc.ptrval, Prog.bind_assoc]
    refine Goes.bind (goes_writeptr hok.toSized hcell (hok.ptr_le a) pos') fun _ => ?_
    refine (Goes.ret _ _ _).next fun _ => (Goes.unlock _ _ _ _ _).next fun _ => ?_
    exact (Goes.check (by decide) _ _).next fun _ => Goes.ret _ _ _

/-- The stores of an insertion that takes the deleted record `a` from the free
list, where it follows the records `pre`. -/
def Store.taken (st : Store) (pre : List ℕ) (a : ℕ) : Store :=
  st.setPtr (lastCell FREE_OFF pre) (st.ptr a)

def Store.refilled (st : Store) (pre : List ℕ) (a : ℕ) (data : List Byte) : Store :=
  (st.taken pre a).setDat (st.body a).datoff data

def Store.rekeyed (st : Store) (pre : List ℕ) (a : ℕ) (key data : List Byte) : Store :=
  (st.refilled pre a data).setRec a (st.ptr (cell (hashOf key))) ((st.body a).rekey key)

def Store.reused (st : Store) (pre : List ℕ) (a : ℕ) (key data : List Byte) : Store :=
  (st.rekeyed pre a key data).setPtr (cell (hashOf key)) a

theorem goes_reuse (hok : st.Ok) (hformat : FormatOk format) (hdata : ∀ c ∈ data, c ≠ 0)
    (ha : a ∈ st.offs) (hle : a ≤ PTR_MAX) (hd : st.HasData a) (hfit : (st.body a).Fits key data)
    {db : DB} (hdb : db.At key) (hloc : db.Located a (st.ptr a) (st.body a)) {f : DB → DB}
    (hf : ∀ db, ∃ cnt, f db = { db with cnt := cnt }) (pos : Pos) : ∃ db', db'.Opened ∧
      db'.StandsAt (st.reused pre a key data) key a ∧
      Goes (do
        let db ← dbWritedat db data db.datoff .seekSet
        let db ← dbWriteidxWith format db key db.idxoff .seekSet (st.ptr (cell (hashOf key)))
        dbWriteptr db.chainoff db.idxoff
        return (f db, (0 : ℤ))) ((st.taken pre a).files, pos)
        [(st.taken pre a).files, (st.refilled pre a data).files, (st.rekeyed pre a key data).files]
        (.ok (db', 0)) (st.reused pre a key data).files := by
  have hok₁ : (st.taken pre a).Ok := hok.setPtr (hok.ptr_le a)
  have hlen : data.length = (st.dat (st.body a).datoff).length := by
    have h₁ := hfit.2
    have h₂ := hd.len
    omega
  have hok₂ : (st.refilled pre a data).Ok := hok₁.setDat hd.mem hdata hlen
  have hsize := Body.length_text_rekey (st.body a) hfit.1.symm
  have hs : (st.rekeyed pre a key data).Sized := hok₂.setRec_sized ha (hok.ptr_le _) hsize
  have hself : (st.reused pre a key data).body a = (st.body a).rekey key := Function.update_self ..
  have hge := (hok.off_bounds ha).1
  obtain ⟨cnt, he⟩ := hf { db with
    datoff := (st.body a).datoff
    datlen := data.length + 1
    ptrval := st.ptr (cell (hashOf key))
    idxbuf := ((st.body a).rekey key).text
    idxoff := a }
  refine ⟨f { db with
    datoff := (st.body a).datoff
    datlen := data.length + 1
    ptrval := st.ptr (cell (hashOf key))
    idxbuf := ((st.body a).rekey key).text
    idxoff := a }, ?_, ?_, ?_⟩
  · rw [he]
    exact hdb.opened
  · rw [he]
    refine { mem := ha, pos := by omega, key := ?_, idxoff := rfl, datoff := ?_, datlen := ?_ }
    · rw [hself]
      rfl
    · rw [hself]
      rfl
    · rw [hself]
      exact hfit.2.symm
  · simp only [hloc.datoff]
    refine (goes_writedatSet hok₁ hd.mem hlen db pos).bind fun pos₁ => ?_
    simp only [hloc.idxoff]
    refine (goes_writeidxSet hok₂ hformat _ ha (hok.ptr_le _) hsize rfl hfit.2.symm pos₁).bind
      fun pos₂ => ?_
    simp only [hdb.chainoff]
    exact Goes.bind (goes_writeptr hs (Or.inl (cell_mem_heads (hashOf_lt key))) hle pos₂)
      fun pos₃ => Goes.ret _ _ _

end Reuse

section Operations

/-- The arguments that db_store accepts: the flag is one of the three, and the
data has an admissible length. -/
structure Accepted (data : List Byte) (flag : ℤ) : Prop where
  flag : flag = DB_INSERT ∨ flag = DB_REPLACE ∨ flag = DB_STORE
  min_le : DATLEN_MIN ≤ data.length + 1
  le_max : data.length + 1 ≤ DATLEN_MAX

instance (data : List Byte) (flag : ℤ) : Decidable (Accepted data flag) :=
  decidable_of_iff ((flag = DB_INSERT ∨ flag = DB_REPLACE ∨ flag = DB_STORE) ∧
    DATLEN_MIN ≤ data.length + 1 ∧ data.length + 1 ≤ DATLEN_MAX)
    ⟨fun h => ⟨h.1, h.2.1, h.2.2⟩, fun h => ⟨h.flag, h.min_le, h.le_max⟩⟩

/-- What db_store does to a database at rest: the stores that it goes through, the
one it ends with, and whether it succeeds. -/
inductive Stores (st : Store) (chain : ℕ → List ℕ) (free : List ℕ) (key data : List Byte)
    (flag : ℤ) : List Store → Store → Bool → Prop
  | refused (h : ¬ Accepted data flag) : Stores st chain free key data flag [] st false
  | missing (hmiss : ∀ o ∈ chain (hashOf key), (st.body o).key ≠ key) (hflag : flag = DB_REPLACE) :
    Stores st chain free key data flag [] st false
  | present {o : ℕ} (ho : o ∈ chain (hashOf key)) (hkey : (st.body o).key = key)
    (hflag : flag = DB_INSERT) : Stores st chain free key data flag [] st false
  | reused {pre : List ℕ} {a : ℕ} {rest : List ℕ} (h : Accepted data flag)
    (hmiss : ∀ o ∈ chain (hashOf key), (st.body o).key ≠ key) (hflag : flag ≠ DB_REPLACE)
    (hfree : free = pre ++ a :: rest) (hfit : (st.body a).Fits key data) :
    Stores st chain free key data flag
      [st, st.taken pre a, st.refilled pre a data, st.rekeyed pre a key data]
      (st.reused pre a key data) true
  | appended {log : List Store} {fin : Store} {done : Bool} (h : Accepted data flag)
    (hmiss : ∀ o ∈ chain (hashOf key), (st.body o).key ≠ key) (hflag : flag ≠ DB_REPLACE)
    (hfit : ∀ a ∈ free, ¬ (st.body a).Fits key data)
    (happ : Appends st (cell (hashOf key)) (st.ptr (cell (hashOf key))) key data log fin done) :
    Stores st chain free key data flag log fin done
  | replaced {pre : List ℕ} {o : ℕ} {rest : List ℕ} {log : List Store} {fin : Store} {done : Bool}
    (h : Accepted data flag) (hchain : chain (hashOf key) = pre ++ o :: rest)
    (hkey : (st.body o).key = key) (hflag : flag ≠ DB_INSERT)
    (hlen : data.length + 1 ≠ (st.body o).datlen)
    (happ : Appends (st.unlinked o (lastCell (cell (hashOf key)) pre)) (cell (hashOf key))
      ((st.unlinked o (lastCell (cell (hashOf key)) pre)).ptr (cell (hashOf key))) key data
      log fin done) :
    Stores st chain free key data flag
      ([st, st.dataWiped o, st.recWiped o, st.freed o] ++ log) fin done
  | overwritten {o : ℕ} (h : Accepted data flag) (ho : o ∈ chain (hashOf key))
    (hkey : (st.body o).key = key) (hflag : flag ≠ DB_INSERT)
    (hlen : data.length + 1 = (st.body o).datlen) :
    Stores st chain free key data flag [st] (st.setDat (st.body o).datoff data) true

theorem Stores.accepted {st : Store} {chain : ℕ → List ℕ} {free : List ℕ} {key data : List Byte}
    {flag : ℤ} {log : List Store} {fin : Store}
    (h : Stores st chain free key data flag log fin true) : Accepted data flag := by
  cases h with
  | reused hacc _ _ _ _ => exact hacc
  | appended hacc _ _ _ _ => exact hacc
  | replaced hacc _ _ _ _ _ => exact hacc
  | overwritten hacc _ _ _ _ => exact hacc

/-- The key has a record whose data is to be replaced by data of another length. -/
def Replaces (st : Store) (chain : ℕ → List ℕ) (key data : List Byte) (flag : ℤ) : Prop :=
  Accepted data flag ∧ ∃ o ∈ chain (hashOf key), (st.body o).key = key ∧ flag ≠ DB_INSERT ∧
    data.length + 1 ≠ (st.body o).datlen

instance (st : Store) (chain : ℕ → List ℕ) (key data : List Byte) (flag : ℤ) :
    Decidable (Replaces st chain key data flag) :=
  inferInstanceAs (Decidable (Accepted data flag ∧ ∃ o ∈ chain (hashOf key), _))

/-- db_store has to append a record: one is to be replaced, or the key has none and no
deleted record fits. -/
def NeedsAppend (st : Store) (chain : ℕ → List ℕ) (free : List ℕ) (key data : List Byte)
    (flag : ℤ) : Prop :=
  Replaces st chain key data flag ∨
    Accepted data flag ∧ (∀ o ∈ chain (hashOf key), (st.body o).key ≠ key) ∧ flag ≠ DB_REPLACE ∧
      ∀ a ∈ free, ¬ (st.body a).Fits key data

theorem NeedsAppend.accepted {st : Store} {chain : ℕ → List ℕ} {free : List ℕ} {key data : List Byte}
    {flag : ℤ} (h : NeedsAppend st chain free key data flag) : Accepted data flag :=
  h.elim And.left And.left

/-- What db_store does when its data argument gives `data`, but `data'` as soon as a
record has been deleted to be replaced. -/
inductive StoresWith (st : Store) (chain : ℕ → List ℕ) (free : List ℕ) (key data data' : List Byte)
    (flag : ℤ) : List Store → Store → Bool → Prop
  | kept {log : List Store} {fin : Store} {done : Bool} (hkept : ¬ Replaces st chain key data flag)
    (h : Stores st chain free key data flag log fin done) :
    StoresWith st chain free key data data' flag log fin done
  | replaced {pre : List ℕ} {o : ℕ} {rest : List ℕ} {log : List Store} {fin : Store} {done : Bool}
    (h : Accepted data flag) (hchain : chain (hashOf key) = pre ++ o :: rest)
    (hkey : (st.body o).key = key) (hflag : flag ≠ DB_INSERT)
    (hlen : data.length + 1 ≠ (st.body o).datlen)
    (happ : Appends (st.unlinked o (lastCell (cell (hashOf key)) pre)) (cell (hashOf key))
      ((st.unlinked o (lastCell (cell (hashOf key)) pre)).ptr (cell (hashOf key))) key data'
      log fin done) :
    StoresWith st chain free key data data' flag
      ([st, st.dataWiped o, st.recWiped o, st.freed o] ++ log) fin done

theorem StoresWith.stores {st : Store} {chain : ℕ → List ℕ} {free : List ℕ} {key data : List Byte}
    {flag : ℤ} {log : List Store} {fin : Store} {done : Bool}
    (h : StoresWith st chain free key data data flag log fin done) :
    Stores st chain free key data flag log fin done := by
  cases h with
  | kept _ h => exact h
  | replaced h hchain hkey hflag hlen happ => exact .replaced h hchain hkey hflag hlen happ

/-- What db_delete does to a database at rest. -/
inductive Deletes (st : Store) (chain : ℕ → List ℕ) (key : List Byte) : List Store → Store → Prop
  | missing (hmiss : ∀ o ∈ chain (hashOf key), (st.body o).key ≠ key) :
    Deletes st chain key [] st
  | removed {pre : List ℕ} {o : ℕ} {rest : List ℕ}
    (hchain : chain (hashOf key) = pre ++ o :: rest) (hkey : (st.body o).key = key) :
    Deletes st chain key [st, st.dataWiped o, st.recWiped o, st.freed o]
      (st.unlinked o (lastCell (cell (hashOf key)) pre))

/-- The unlock at the end of db_store and of db_delete. -/
theorem goes_unlockChain {p : Prog sig (DB × ℤ)} {s : Files × Pos} {log : List Files}
    {out : Outcome (DB × ℤ)} {files : Files} (h : Goes p s log out files) (hout : out ≠ .diverged)
    (msg : String) :
    Goes (do
      let x ← p
      let rc ← unLock .idx x.1.chainoff 1
      errDumpIf (rc < 0) msg
      return (x.1, x.2)) s log out files := by
  cases out with
  | ok v =>
    rw [← List.append_nil log]
    refine h.bind fun _ => (Goes.unlock _ _ _ _ _).next fun _ => ?_
    exact (Goes.check (by decide) _ _).next fun _ => Goes.ret _ _ _
  | aborted m => exact h.bind_aborted
  | diverged => exact absurd rfl hout

variable {files : Files} {chain : ℕ → List ℕ} {free : List ℕ} (h : Resting files st chain free)
include h

section Removed

variable {pre rest : List ℕ} (hchain : chain (hashOf key) = pre ++ o :: rest)
include hchain

theorem Resting.mem_of_chain : o ∈ st.offs :=
  (h.searched key).mem o (hchain ▸ List.mem_append_right _ List.mem_cons_self)

/-- A deletion changes the length of neither file. -/
theorem Resting.length_unlinked (c : ℕ) :
    (st.unlinked o c).idxFile.length = st.idxFile.length ∧
      (st.unlinked o c).datFile.length = st.datFile.length := by
  have ho := h.mem_of_chain hchain
  have hd := h.data o ho
  refine h.ok.length_files (h.ok.unlinked ho hd (h.off_le ho) c) rfl (fun a _ => ?_) rfl
    fun d _ => ?_
  · by_cases hne : a = o
    · subst hne
      have hself : (st.unlinked a c).body a =
          (st.body a).rekey (List.replicate (st.body a).key.length SPACE) := Function.update_self ..
      rw [hself, Body.length_text_rekey _ List.length_replicate]
    · have hbody : (st.unlinked o c).body a = st.body a := Function.update_of_ne hne ..
      rw [hbody]
  · by_cases hne : d = (st.body o).datoff
    · have hself : (st.unlinked o c).dat (st.body o).datoff =
          List.replicate ((st.body o).datlen - 1) SPACE := Function.update_self ..
      rw [hne, hself, List.length_replicate, hd.len, Nat.add_sub_cancel]
    · have hdat : (st.unlinked o c).dat d = st.dat d := Function.update_of_ne hne ..
      rw [hdat]

theorem Resting.appendStop_unlinked (c : ℕ) (data : List Byte) :
    (st.unlinked o c).appendStop format key data = st.appendStop format key data := by
  obtain ⟨hidx, hdat⟩ := h.length_unlinked hchain c
  rw [Store.appendStop, Store.newBody, hidx, hdat, Store.appendStop, Store.newBody]

end Removed

/-- The deletion of a record that was found. -/
theorem Resting.goes_dodelete (hformat : FormatOk format) {pre : List ℕ} {rest : List ℕ}
    (hchain : chain (hashOf key) = pre ++ o :: rest) {db : DB} (hfound : db.Found st key pre o)
    (pos : Pos) : ∃ db', db.SameChain db' ∧
      db'.datbuf = List.replicate ((st.body o).datlen - 1) SPACE ∧
      Goes (dbDodeleteWith format db) (st.files, pos)
        [st.files, (st.dataWiped o).files, (st.recWiped o).files, (st.freed o).files] (.ok db')
        (st.unlinked o (lastCell (cell (hashOf key)) pre)).files := by
  have hmem := (h.searched key).mem
  rw [hchain] at hmem
  have ho : o ∈ st.offs := hmem o (List.mem_append_right _ List.mem_cons_self)
  refine Db.goes_dodelete h.ok hformat ho (h.data o ho) (h.off_le ho) ?_ hfound.located
    hfound.ptroff pos
  rcases List.mem_cons.mp (lastCell_mem (cell (hashOf key)) pre) with he | hin
  · exact Or.inl (he.symm ▸ cell_mem_heads (hashOf_lt key))
  · exact Or.inr (hmem _ (List.mem_append_left _ hin))

variable (hfuel : PTR_MAX < fuel) {db : DB} (hdb : db.Opened)
include hfuel hdb

theorem goes_delete (key : List Byte) (pos : Pos) : ∃ log fin db' rc,
    Deletes st chain key log fin ∧ db'.Opened ∧
      Goes (dbDelete fuel db key) (st.files, pos) (log.map Store.files) (.ok (db', rc))
        fin.files := by
  have hs := h.searched key
  obtain ⟨db₁, rc, hfind, hat, -, hcases⟩ :=
    goes_findAndLock hfuel h.ok hdb hs.linked hs.nodup hs.mem true pos
  unfold dbDelete
  rcases hcases with ⟨rfl, hmiss⟩ | ⟨rfl, pre, o, rest, hl, hfound⟩
  · refine ⟨[], st, { db₁ with cnt.delerr := db₁.cnt.delerr + 1 }, -1, .missing hmiss, hat.opened,
      hfind.next fun pos₁ => ?_⟩
    simp only
    rw [if_neg (by decide)]
    exact goes_unlockChain (Goes.ret _ _ _) (by rintro ⟨⟩) _
  · obtain ⟨pos₁, hfind⟩ := hfind
    obtain ⟨db₂, hsame, -, hdel⟩ := h.goes_dodelete formatOk_unchecked hl hfound pos₁
    rw [← dbDodelete] at hdel
    refine ⟨_, _, { db₂ with cnt.delok := db₂.cnt.delok + 1 }, 0, .removed hl hfound.match_key,
      hat.opened.of_sameChain hsame, Goes.of_read hfind ?_⟩
    simp only
    rw [if_pos trivial]
    refine goes_unlockChain ?_ ?_ _
    · exact hdel.bind fun _ => Goes.ret _ _ _
    · rintro ⟨⟩

variable {arg : DataArg} (hformat : FormatOk format) (hdata : ∀ c ∈ data, c ≠ 0) {flag : ℤ}
variable (hacc : Accepted data flag) (hread : ∀ db', db'.datbuf = db.datbuf → arg.read db' = data)

include hformat hdata hacc hread

omit hdb in
/-- db_store on a key that has no record. -/
theorem goes_storeNew (hmiss : ∀ o ∈ chain (hashOf key), (st.body o).key ≠ key) (hat : db.At key)
    (pos : Pos) : ∃ log fin done out, Stores st chain free key data flag log fin done ∧
      Goes (storeNewWith format fuel db key arg (data.length + 1) flag) (st.files, pos)
        (log.map Store.files) out fin.files ∧
      (Succeeds out ↔ done = true) ∧ Usable fin key out ∧
      (NeedsAppend st chain free key data flag →
        out.EndsWith (st.appendStop format key data)) ∧
      (¬ NeedsAppend st chain free key data flag → out.EndsWith none) := by
  have hcell : st.IsCell (cell (hashOf key)) := Or.inl (cell_mem_heads (hashOf_lt key))
  have hmem : ∀ o ∈ free, o ∈ st.offs := fun o ho => ((h.mem_free o).mp ho).1
  have hneeds : NeedsAppend st chain free key data flag ↔
      flag ≠ DB_REPLACE ∧ ∀ a ∈ free, ¬ (st.body a).Fits key data := by
    refine ⟨?_, fun hn => Or.inr ⟨hacc, hmiss, hn⟩⟩
    rintro (⟨-, o, ho, hk, -⟩ | ⟨-, -, hn⟩)
    · exact absurd hk (hmiss o ho)
    · exact hn
  rw [hneeds]
  unfold storeNewWith
  by_cases hflag : flag = DB_REPLACE
  · rw [if_pos hflag]
    refine ⟨_, _, _, .ok ({ db with
      cnt.storerr := db.cnt.storerr + 1
      errno := some .ENOENT }, -1), .missing hmiss hflag, Goes.ret _ _ _, ?_,
      usable_refused hat.opened (by simp), fun hn => absurd hflag hn.1, fun _ => rfl⟩
    exact iff_of_false (fun ⟨_, he⟩ => by cases he) nofun
  · rw [if_neg hflag, hat.chainoff]
    obtain ⟨pos₁, hptr⟩ := goes_readptr h.ok hcell pos
    obtain ⟨db₁, hsame, hbuf, hfit, pos₂, hfree⟩ |
        ⟨db₁, pre, a, rest, hsame, hbuf, hl, hfit, hloc, pos₂, hfree⟩ :=
      goes_findfree hfuel h.ok h.linked_free h.nodup_free hmem db key data pos₁
    · obtain ⟨log, fin, done, out, happ, hgoes, hsucc, husable, hends⟩ :=
        @goes_append st key data format h.ok hformat hdata _ _ hcell (h.ok.ptr_le _) db₁
          (hsame.2.2.trans hat.chainoff) (hat.opened.of_sameChain hsame)
          (fun db => { db with cnt.stor1 := db.cnt.stor1 + 1 }) (fun _ => ⟨_, rfl⟩) pos₂
      refine ⟨log, fin, done, out, .appended hacc hmiss hflag hfit happ, ?_, hsucc, husable,
        fun _ => hends, fun hn => absurd ⟨hflag, hfit⟩ hn⟩
      refine Goes.of_read hptr (Goes.of_read hfree ?_)
      simp only [hread db₁ hbuf]
      exact hgoes
    · have hain : a ∈ free := hl ▸ List.mem_append_right _ List.mem_cons_self
      have ha : a ∈ st.offs := hmem a hain
      obtain ⟨db₂, hdb₂, hstands, hreuse⟩ := @goes_reuse st key data format pre a h.ok hformat hdata ha
        (h.off_le ha) (h.data a ha) hfit db₁
        ⟨hat.opened.of_sameChain hsame, hsame.2.2.trans hat.chainoff⟩ hloc
        (fun db => { db with cnt.stor2 := db.cnt.stor2 + 1 }) (fun _ => ⟨_, rfl⟩) pos₂
      refine ⟨_, _, _, .ok (db₂, 0), .reused hacc hmiss hflag hl hfit, ?_,
        iff_of_true ⟨_, rfl⟩ rfl, usable_done hdb₂ hstands, fun hn => absurd hfit (hn.2 a hain),
        fun _ => rfl⟩
      refine Goes.of_read hptr (Goes.of_runs hfree ?_)
      simp only [hread db₁ hbuf]
      exact hreuse

omit hfuel hdb hdata in
/-- db_store on a key that has a record. -/
theorem goes_storeFound {pre rest : List ℕ} (hl : chain (hashOf key) = pre ++ o :: rest)
    (hat : db.At key) (hfound : db.Found st key pre o) {data' : List Byte}
    (hdata' : ∀ c ∈ data', c ≠ 0)
    (hwiped : ∀ db', db'.datbuf = List.replicate ((st.body o).datlen - 1) SPACE →
      arg.read db' = data') (pos : Pos) :
    ∃ log fin done out, StoresWith st chain free key data data' flag log fin done ∧
      Goes (storeFoundWith format db key arg (data.length + 1) flag) (st.files, pos)
        (log.map Store.files) out fin.files ∧
      (Succeeds out ↔ done = true) ∧ Usable fin key out ∧
      (NeedsAppend st chain free key data flag →
        out.EndsWith (st.appendStop format key data')) ∧
      (¬ NeedsAppend st chain free key data flag → out.EndsWith none) := by
  have ho : o ∈ chain (hashOf key) := hl ▸ List.mem_append_right _ List.mem_cons_self
  have hmem : o ∈ st.offs := (h.mem_chain_hash.mp ho).1
  have hd := h.data o hmem
  have hreplaces : Replaces st chain key data flag ↔
      flag ≠ DB_INSERT ∧ data.length + 1 ≠ (st.body o).datlen := by
    refine ⟨?_, fun hr => ⟨hacc, o, ho, hfound.match_key, hr⟩⟩
    rintro ⟨-, a, ha, hk, hr⟩
    rwa [(h.searched key).uniq o ho a ha hfound.match_key hk]
  have hneeds : NeedsAppend st chain free key data flag ↔
      flag ≠ DB_INSERT ∧ data.length + 1 ≠ (st.body o).datlen := by
    rw [← hreplaces]
    refine ⟨?_, Or.inl⟩
    rintro (hr | ⟨-, hmiss, -⟩)
    · exact hr
    · exact absurd hfound.match_key (hmiss o ho)
  rw [hneeds]
  unfold storeFoundWith
  by_cases hflag : flag = DB_INSERT
  · rw [if_pos hflag]
    refine ⟨_, _, _, .ok ({ db with cnt.storerr := db.cnt.storerr + 1 }, 1),
      .kept (fun hr => (hreplaces.mp hr).1 hflag) (.present ho hfound.match_key hflag),
      Goes.ret _ _ _, ?_, usable_refused hat.opened (by simp), fun hn => absurd hflag hn.1,
      fun _ => rfl⟩
    exact iff_of_false (fun ⟨_, he⟩ => by cases he) nofun
  · rw [if_neg hflag, hfound.located.datlen]
    by_cases hlen : data.length + 1 = (st.body o).datlen
    · rw [if_neg (not_not.mpr hlen), hfound.located.datoff, hread db rfl]
      have hsize : data.length = (st.dat (st.body o).datoff).length := by
        have := hd.len
        omega
      refine ⟨_, _, _, .ok (_, 0), .kept (fun hr => (hreplaces.mp hr).2 hlen)
        (.overwritten hacc ho hfound.match_key hflag hlen),
        (goes_writedatSet h.ok hd.mem hsize db pos).bind fun _ => Goes.ret _ _ _,
        iff_of_true ⟨_, rfl⟩ rfl, @usable_done key o _ _ hat.opened ?_,
        fun hn => absurd hlen hn.2, fun _ => rfl⟩
      have hge := (h.ok.off_bounds hmem).1
      exact { mem := hmem, pos := by omega, key := hfound.match_key, idxoff := hfound.located.idxoff,
              datoff := rfl, datlen := hlen }
    · rw [if_pos hlen]
      obtain ⟨db₁, hsame, hbuf, pos₁, hdel⟩ := h.goes_dodelete hformat hl hfound pos
      have hok := h.ok.unlinked hmem hd (h.off_le hmem) (lastCell (cell (hashOf key)) pre)
      have hcell : (st.unlinked o (lastCell (cell (hashOf key)) pre)).IsCell (cell (hashOf key)) :=
        Or.inl (cell_mem_heads (hashOf_lt key))
      have hchainoff : db₁.chainoff = cell (hashOf key) := hsame.2.2.trans hat.chainoff
      obtain ⟨pos₂, hptr⟩ := goes_readptr hok hcell pos₁
      obtain ⟨log, fin, done, out, happ, hgoes, hsucc, husable, hends⟩ :=
        @goes_append _ key data' format hok hformat hdata' _ _ hcell (hok.ptr_le _) db₁ hchainoff
          (hat.opened.of_sameChain hsame)
          (fun db => { db with cnt.stor3 := db.cnt.stor3 + 1 }) (fun _ => ⟨_, rfl⟩) pos₂
      rw [h.appendStop_unlinked hl] at hends
      refine ⟨_, fin, done, out, .replaced hacc hl hfound.match_key hflag hlen happ, ?_, hsucc,
        husable, fun _ => hends, fun hn => absurd ⟨hflag, hlen⟩ hn⟩
      rw [List.map_append]
      refine Goes.of_runs hdel ?_
      rw [hchainoff, hwiped db₁ hbuf]
      exact Goes.of_read hptr hgoes

omit hacc in
/-- Every call of db_store does one of the things above. -/
theorem goes_storeWith {data' : List Byte} (hdata' : ∀ c ∈ data', c ≠ 0)
    (hwiped : ∀ o ∈ chain (hashOf key), (st.body o).key = key → ∀ db' : DB,
      db'.datbuf = List.replicate ((st.body o).datlen - 1) SPACE → arg.read db' = data')
    (flag : ℤ) (pos : Pos) :
    ∃ log fin done out, StoresWith st chain free key data data' flag log fin done ∧
      Goes (dbStoreWith format fuel db key arg flag) (st.files, pos) (log.map Store.files) out
        fin.files ∧
      (Succeeds out ↔ done = true) ∧ Usable fin key out ∧
      (NeedsAppend st chain free key data flag → out.EndsWith (st.appendStop format key
        (if Replaces st chain key data flag then data' else data))) ∧
      (¬ NeedsAppend st chain free key data flag → ∀ msg, out = .aborted msg →
        msg = "db_store: invalid data length") := by
  unfold dbStoreWith
  simp only [hread db rfl]
  by_cases hflag : flag ≠ DB_INSERT ∧ flag ≠ DB_REPLACE ∧ flag ≠ DB_STORE
  · have hrefused : ¬ Accepted data flag := fun hacc => by
      rcases hacc.flag with he | he | he
      · exact hflag.1 he
      · exact hflag.2.1 he
      · exact hflag.2.2 he
    rw [if_pos hflag]
    refine ⟨_, _, _, .ok ({ db with errno := some .EINVAL }, -1),
      .kept (fun hr => hrefused hr.1) (.refused hrefused), Goes.ret _ _ _, ?_,
      usable_refused hdb (by simp), fun hn => (hrefused hn.accepted).elim,
      fun _ _ he => by cases he⟩
    exact iff_of_false (by rintro ⟨_, he⟩; cases he) Bool.false_ne_true
  · rw [if_neg hflag]
    by_cases hlen : data.length + 1 < DATLEN_MIN ∨ data.length + 1 > DATLEN_MAX
    · have hrefused : ¬ Accepted data flag := fun hacc => by
        rcases hlen with hlt | hgt
        · exact absurd hacc.min_le (not_le.mpr hlt)
        · exact absurd hacc.le_max (not_le.mpr hgt)
      exact ⟨_, _, _, .aborted "db_store: invalid data length",
        .kept (fun hr => hrefused hr.1) (.refused hrefused), (Goes.stop hlen _ _).bind_aborted,
        iff_of_false (by rintro ⟨_, he⟩; cases he) (by rintro ⟨⟩), (fun _ he => by cases he),
        fun hn => (hrefused hn.accepted).elim, fun _ _ he => (Outcome.aborted.inj he).symm⟩
    · have hacc : Accepted data flag := ⟨by tauto, by omega, by omega⟩
      have hs := h.searched key
      obtain ⟨db₁, rc, ⟨pos₁, hfind⟩, hat, hbuf, hcases⟩ :=
        goes_findAndLock hfuel h.ok hdb hs.linked hs.nodup hs.mem true pos
      have hread₁ : ∀ db', db'.datbuf = db₁.datbuf → arg.read db' = data := fun db' he =>
        hread db' (he.trans hbuf)
      have hpart : ∃ log fin done out,
          StoresWith st chain free key data data' flag log fin done ∧
          Goes (if rc < 0 then storeNewWith format fuel db₁ key arg (data.length + 1) flag
            else storeFoundWith format db₁ key arg (data.length + 1) flag)
            (st.files, pos₁) (log.map Store.files) out fin.files ∧
          (Succeeds out ↔ done = true) ∧ Usable fin key out ∧
          (NeedsAppend st chain free key data flag → out.EndsWith (st.appendStop format key
            (if Replaces st chain key data flag then data' else data))) ∧
          (¬ NeedsAppend st chain free key data flag → out.EndsWith none) := by
        rcases hcases with ⟨rfl, hmiss⟩ | ⟨rfl, pre, o, rest, hl, hfound⟩
        · have hkept : ¬ Replaces st chain key data flag := by
            rintro ⟨_, o, ho, hk, _⟩
            exact hmiss o ho hk
          rw [if_pos (by decide), if_neg hkept]
          obtain ⟨log, fin, done, out, hstores, hrest⟩ :=
            goes_storeNew h hfuel hformat hdata hacc hread₁ hmiss hat pos₁
          exact ⟨log, fin, done, out, .kept hkept hstores, hrest⟩
        · have ho : o ∈ chain (hashOf key) := hl ▸ List.mem_append_right _ List.mem_cons_self
          rw [if_neg (by decide)]
          obtain ⟨log, fin, done, out, hstores, hgoes, hsucc, husable, hneeds, hrest⟩ :=
            goes_storeFound h hformat hacc hread₁ hl hat hfound hdata'
              (hwiped o ho hfound.match_key) pos₁
          refine ⟨log, fin, done, out, hstores, hgoes, hsucc, husable, fun hn => ?_, hrest⟩
          have hr : Replaces st chain key data flag :=
            hn.resolve_right fun hmiss => hmiss.2.1 o ho hfound.match_key
          rw [if_pos hr]
          exact hneeds hn
      obtain ⟨log, fin, done, out, hstores, hgoes, hsucc, husable, hneeds, hrest⟩ := hpart
      have hdiv : out ≠ .diverged := by
        by_cases hn : NeedsAppend st chain free key data flag
        · exact (hneeds hn).ne_diverged
        · exact (hrest hn).ne_diverged
      refine ⟨log, fin, done, out, hstores, ?_, hsucc, husable, hneeds, fun hn msg he => ?_⟩
      · refine Goes.of_read (Runs.check hlen _) (Goes.of_read hfind ?_)
        exact goes_unlockChain hgoes hdiv _
      · exact absurd ((Outcome.EndsWith.aborted_iff (hrest hn) msg).mp he) (by rintro ⟨⟩)

omit hacc hread in
/-- The store of a string. -/
theorem goes_storeString (key : List Byte) (flag : ℤ) (pos : Pos) :
    ∃ log fin done out, StoresWith st chain free key data data flag log fin done ∧
      Goes (dbStoreWith format fuel db key (.string data) flag) (st.files, pos)
        (log.map Store.files) out fin.files ∧
      (Succeeds out ↔ done = true) ∧ Usable fin key out ∧
      (NeedsAppend st chain free key data flag →
        out.EndsWith (st.appendStop format key data)) ∧
      (¬ NeedsAppend st chain free key data flag → ∀ msg, out = .aborted msg →
        msg = "db_store: invalid data length") := by
  obtain ⟨log, fin, done, out, hstores, hrest⟩ := @goes_storeWith fuel st key data format files chain
    free h hfuel db hdb (.string data) hformat hdata (fun _ _ => rfl) data hdata
    (fun _ _ _ _ _ => rfl) flag pos
  rw [ite_self] at hrest
  exact ⟨log, fin, done, out, hstores, hrest⟩

omit hformat hacc hread in
theorem goes_store (key : List Byte) (flag : ℤ) (pos : Pos) :
    ∃ log fin done out, Stores st chain free key data flag log fin done ∧
      Goes (dbStore fuel db key data flag) (st.files, pos) (log.map Store.files) out fin.files ∧
      (Succeeds out ↔ done = true) := by
  obtain ⟨log, fin, done, out, hstores, hgoes, hsucc, -⟩ :=
    goes_storeString h hfuel hdb formatOk_unchecked hdata key flag pos
  exact ⟨log, fin, done, out, hstores.stores, hgoes, hsucc⟩

end Operations

end Apue.Db
