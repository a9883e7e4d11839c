import Apue.DbAlone
import Apue.DbSession

/-!
What _db_readidx and db_nextrec make of arbitrary bytes. A record that
_db_readidx accepts is given by the two columns in front, the three strings
between the separators and what follows them; nothing is asked of the column of
the chain pointer. The result is that column as a number, and db_nextrec takes
every negative one for the end of the file.
-/
namespace Apue.Db

open Programs Decimal ByteFiles

variable {fuel : ℕ} {files : Files} {pos : Pos}

/-- An index record as bytes. `rest` is what follows a null in the last string, with that
null. -/
structure RawRecord where
  ptr : List Byte
  size : List Byte
  key : List Byte
  start : List Byte
  len : List Byte
  rest : List Byte

namespace RawRecord

/-- The bytes that are read into the index buffer. -/
def text (r : RawRecord) : List Byte :=
  r.key ++ SEP :: (r.start ++ SEP :: (r.len ++ r.rest)) ++ [NEWLINE]

def bytes (r : RawRecord) : List Byte := r.ptr ++ r.size ++ r.text

/-- The records that _db_readidx accepts. -/
structure Ok (r : RawRecord) : Prop where
  length_ptr : r.ptr.length = PTR_SZ
  length_size : r.size.length = IDXLEN_SZ
  size : atol r.size = r.text.length
  min_le : IDXLEN_MIN ≤ r.text.length
  le_max : r.text.length ≤ IDXLEN_MAX
  ended : ∀ c ∈ r.rest.head?, c = 0
  key : Body.Plain r.key
  start : Body.Plain r.start
  len : Body.Plain r.len
  datoff : 0 ≤ atol r.start
  datlen_pos : 0 < atol r.len
  datlen_le : atol r.len ≤ DATLEN_MAX

end RawRecord

/-- What the index buffer holds after the newline and the separators at `i` and `j`
have been replaced. -/
def nulled (text : List Byte) (i j : ℕ) : List Byte :=
  ((text.set (text.length - 1) 0).set i 0).set j 0

/-- strchr finds the first of the bytes. -/
theorem strchr_eq_some {text a b : List Byte} {c : Byte} :
    strchr text c = some (a, b) ↔ text = a ++ c :: b ∧ c ∉ a := by
  constructor
  · intro h
    unfold strchr at h
    split at h
    · cases h
    · rename_i x rest hdrop
      obtain ⟨rfl, rfl⟩ := Prod.mk.inj (Option.some.inj h)
      have hx : x = c := by
        have hhead := List.head?_dropWhile_not (fun y => decide (y ≠ c)) text
        rw [hdrop] at hhead
        simpa using hhead
      subst hx
      refine ⟨?_, fun hmem => ?_⟩
      · rw [← hdrop]
        exact (List.takeWhile_append_dropWhile ..).symm
      · have hne := List.mem_takeWhile_imp hmem
        simp at hne
  · rintro ⟨rfl, hc⟩
    exact strchr_append hc

/-- The end of a C string in a buffer. -/
theorem cstr_append_rest (buf : List Byte) :
    ∃ rest, buf = cstr buf ++ rest ∧ ∀ c ∈ rest.head?, c = 0 := by
  refine ⟨buf.dropWhile (· ≠ 0), (List.takeWhile_append_dropWhile ..).symm, fun c hc => ?_⟩
  have hhead := List.head?_dropWhile_not (fun x : Byte => decide (x ≠ 0)) buf
  rw [Option.mem_def.mp hc] at hhead
  simpa using hhead

theorem cstr_append {a rest : List Byte} (ha : ∀ c ∈ a, c ≠ 0) (hrest : ∀ c ∈ rest.head?, c = 0) :
    cstr (a ++ rest) = a := by
  unfold cstr
  rw [List.takeWhile_append_of_pos fun c hc => decide_eq_true (ha c hc)]
  cases rest with
  | nil => rw [List.takeWhile_nil, List.append_nil]
  | cons c rest =>
    rw [hrest c rfl, List.takeWhile_cons_of_neg (by simp), List.append_nil]

theorem mem_cstr {buf : List Byte} {c : Byte} (h : c ∈ cstr buf) : c ≠ 0 := by
  have := List.mem_takeWhile_imp h
  simpa using this

/-- A size that is admissible comes from the same number. -/
theorem sizeOfLong_le {v : ℤ} {n : ℕ} (h : sizeOfLong v ≤ n) (hn : n < 2 ^ 63) :
    v = sizeOfLong v := by
  unfold sizeOfLong at h ⊢
  split
  · rename_i hv
    exact (Int.toNat_of_nonneg hv).symm
  · rename_i hv
    rw [if_neg hv] at h
    omega

section Record

variable {r : RawRecord} (hr : r.Ok)
include hr

/-- The string in the buffer once the newline has become a null. -/
theorem RawRecord.Ok.cstr_text :
    cstr r.text.dropLast = r.key ++ SEP :: (r.start ++ SEP :: r.len) := by
  have htext : r.text.dropLast = r.key ++ SEP :: (r.start ++ SEP :: r.len) ++ r.rest := by
    rw [RawRecord.text, List.dropLast_concat]
    simp only [List.append_assoc, List.cons_append]
  rw [htext]
  refine cstr_append (fun c hc => ?_) hr.ended
  rcases List.mem_append.mp hc with hc | hc
  · exact (hr.key c hc).1
  · rcases List.mem_cons.mp hc with rfl | hc
    · decide
    · rcases List.mem_append.mp hc with hc | hc
      · exact (hr.start c hc).1
      · rcases List.mem_cons.mp hc with rfl | hc
        · decide
        · exact (hr.len c hc).1

theorem RawRecord.Ok.parse (db : DB) : parseIdx db r.text.dropLast =
    .ret { db with idxbuf := r.key, datoff := atol r.start, datlen := (atol r.len).toNat } := by
  have hsep : ∀ {a : List Byte}, Body.Plain a → SEP ∉ a := fun ha hm => (ha _ hm).2 rfl
  have h₁ := hr.datlen_pos
  have h₂ := hr.datlen_le
  have hlen : sizeOfLong (atol r.len) = (atol r.len).toNat := by
    rw [sizeOfLong, if_pos (by omega)]
  have hbad : ¬ ((atol r.len).toNat ≤ 0 ∨ (atol r.len).toNat > DATLEN_MAX) := by omega
  unfold parseIdx
  rw [hr.cstr_text, strchr_append (hsep hr.key)]
  simp only [strchr_append (hsep hr.start), strchr_eq_none (hsep hr.len), hlen, errDumpIf,
    Option.isSome_none, Bool.false_eq_true, if_false, Prog.ret_bind, Prog.pure_eq, if_neg hbad]
  rw [if_neg (not_lt.mpr hr.datoff)]
  rfl

theorem RawRecord.Ok.length_head : (r.ptr ++ r.size).length = PTR_SZ + IDXLEN_SZ := by
  rw [List.length_append, hr.length_ptr, hr.length_size]

theorem RawRecord.Ok.length_bytes : r.bytes.length = PTR_SZ + IDXLEN_SZ + r.text.length := by
  rw [RawRecord.bytes, List.length_append, hr.length_head]

/-- A record takes 17 bytes at least. -/
theorem RawRecord.Ok.inside {file : List Byte} {off : ℕ} (hat : Contains file off r.bytes) :
    17 ≤ r.bytes.length ∧ off + r.bytes.length ≤ file.length := by
  have hmin := hr.min_le
  have hlen := hr.length_bytes
  have hread := congrArg List.length hat
  simp only [readAt, List.length_take, List.length_drop] at hread
  simp only [PTR_SZ, IDXLEN_SZ, IDXLEN_MIN] at hmin hlen
  omega

theorem RawRecord.Ok.ptr_eq {file : List Byte} {off : ℕ} (hat : Contains file off r.bytes) :
    r.ptr = readAt file off PTR_SZ := by
  have hall : Contains file off ([] ++ r.ptr ++ (r.size ++ r.text)) := by
    rw [List.nil_append, ← List.append_assoc]
    exact hat
  exact (hall.inside.readAt_eq hr.length_ptr).symm

/-- What _db_readidx returns for a record that it accepts. -/
def RawRecord.located (r : RawRecord) (db : DB) (off : ℕ) : DB :=
  { db with
    idxoff := off
    ptrval := atol r.ptr
    idxlen := r.text.length
    idxbuf := r.key
    datoff := atol r.start
    datlen := (atol r.len).toNat }

/-- The offset that a call of _db_readidx reads from. -/
def readsFrom (offset : ℤ) (pos : Pos) : ℕ := if offset = 0 then pos.idx else offset.toNat

omit hr in
theorem runs_seekRead {offset : ℤ} (hoff : 0 ≤ offset) (files : Files) (pos : Pos) :
    Runs (lseek .idx offset (if offset = 0 then .seekCur else .seekSet)) (files, pos) []
      (.ok (readsFrom offset pos : ℤ)) (files, { pos with idx := readsFrom offset pos }) := by
  unfold readsFrom
  by_cases hzero : offset = 0
  · rw [if_pos hzero, if_pos hzero, hzero]
    exact runs_seekCur files pos
  · rw [if_neg hzero, if_neg hzero]
    have hseek := @runs_seekSet .idx offset.toNat files pos
    rw [Int.toNat_of_nonneg hoff] at hseek ⊢
    exact hseek

/-- _db_readidx at a record that it accepts. -/
theorem RawRecord.Ok.runs_readidx {offset : ℤ} (hoff : 0 ≤ offset) (db : DB) {pos : Pos}
    (hat : Contains files.idx (readsFrom offset pos) r.bytes) :
    Runs (dbReadidx db offset) (files, pos) []
      (.ok (r.located db (readsFrom offset pos), atol r.ptr))
      (files, { pos with idx := readsFrom offset pos + r.bytes.length }) := by
  have hhead := hr.length_head
  have hmin := hr.min_le
  have hmax := hr.le_max
  have hread : readAt (files.get .idx)
      (({ pos with idx := readsFrom offset pos } : Pos).get .idx) (PTR_SZ + IDXLEN_SZ) =
      r.ptr ++ r.size :=
    (@Contains.inside _ [] (r.ptr ++ r.size) r.text _ hat).readAt_eq hhead
  have htext : readAt (files.get .idx)
      (readsFrom offset pos + (r.ptr ++ r.size).length) r.text.length = r.text := by
    have hall : Contains files.idx (readsFrom offset pos) ((r.ptr ++ r.size) ++ r.text ++ []) := by
      rw [List.append_nil]
      exact hat
    exact hall.inside.readAt_eq rfl
  have hlast : r.text.getLast? = some NEWLINE := List.getLast?_concat
  have hend : readsFrom offset pos + r.bytes.length =
      readsFrom offset pos + (r.ptr ++ r.size).length + r.text.length := by
    rw [RawRecord.bytes, List.length_append, Nat.add_assoc]
  rw [hend]
  unfold dbReadidx
  refine (runs_seekRead hoff files pos).next ((Runs.check (by omega) _).next ?_)
  refine (runs_read hread).next ?_
  rw [if_neg (by simp [hhead, PTR_SZ])]
  refine (Runs.check (by simp [hhead]) _).next ?_
  simp only [List.take_left' hr.length_ptr, List.drop_left' hr.length_ptr, hr.size,
    sizeOfLong_natCast]
  refine (Runs.check (by omega) _).next ((runs_read htext).next ?_)
  refine (Runs.check (by simp) _).next ((Runs.check (by simp [hlast]) _).next ?_)
  rw [hr.parse]
  exact Runs.ret _ _

end Record

section Ends

variable {α : Type}

/-- What an ending program returns and where it leaves its descriptors. -/
theorem Ends.of_run {prog : Prog sig α} {post : α → Pos → Prop} (h : Ends files prog pos post)
    {a : α} {t : Files × Pos} (hrun : prog.run fileCall (files, pos) = (.ok a, t)) :
    t.1 = files ∧ post a t.2 := by
  induction prog generalizing pos with
  | ret b =>
    obtain ⟨he, rfl⟩ := Prod.mk.inj hrun
    obtain rfl := Outcome.ok.inj he
    exact ⟨rfl, h⟩
  | abort msg => cases hrun
  | diverge => cases hrun
  | call c k ih =>
    have hstate : (fileCall c (files, pos)).2 = (files, (fileCall c (files, pos)).2.2) :=
      Prod.ext h.1 rfl
    simp only [Prog.run] at hrun
    rw [hstate] at hrun
    exact ih _ h.2 hrun

theorem Ends.call {c : Call} {v : c.Ret} {pos' : Pos} {post : c.Ret → Pos → Prop}
    (hcall : fileCall c (files, pos) = (v, files, pos')) (h : post v pos') :
    Ends files (.call c .ret) pos post := by
  constructor
  · rw [hcall]
  · rw [hcall]
    exact h

theorem Ends.seekRead {offset : ℤ} {post : ℤ → Pos → Prop} (hneg : offset < 0 → post (-1) pos)
    (h : 0 ≤ offset → post (readsFrom offset pos) { pos with idx := readsFrom offset pos }) :
    Ends files (lseek .idx offset (if offset = 0 then .seekCur else .seekSet)) pos post := by
  by_cases hoff : 0 ≤ offset
  · obtain ⟨hv, hstate⟩ := Prod.mk.inj (runs_seekRead hoff files pos).run
    refine Ends.call (Prod.ext (Outcome.ok.inj hv) hstate) (h hoff)
  · have hlt : offset < 0 := not_le.mp hoff
    refine Ends.call ?_ (hneg hlt)
    rw [if_neg hlt.ne]
    simp only [fileCall, seekBase, Int.zero_add, if_pos hlt]

theorem ends_parse (db : DB) (buf : List Byte) {post : DB → Pos → Prop}
    (h : ∀ key start len rest, buf = key ++ SEP :: (start ++ SEP :: (len ++ rest)) →
      (∀ c ∈ rest.head?, c = 0) → Body.Plain key → Body.Plain start → Body.Plain len →
      0 ≤ atol start → 0 < atol len → atol len ≤ DATLEN_MAX →
      post { db with idxbuf := key, datoff := atol start, datlen := (atol len).toNat } pos) :
    Ends files (parseIdx db buf) pos post := by
  unfold parseIdx
  split
  · trivial
  · rename_i key ptr1 hfirst
    split
    · trivial
    · rename_i start ptr2 hsecond
      refine Ends.bind (Ends.errDumpIf fun hmore => Ends.bind (Ends.errDumpIf fun hoff => ?_))
      refine Ends.bind (Ends.errDumpIf fun hlen => ?_)
      obtain ⟨hcstr, hkey⟩ := strchr_eq_some.mp hfirst
      obtain ⟨hptr, hstart⟩ := strchr_eq_some.mp hsecond
      have hptr2 : SEP ∉ ptr2 := fun hmem => by
        obtain ⟨a, b, hsplit, ha⟩ := List.eq_append_cons_of_mem hmem
        rw [strchr_eq_some.mpr ⟨hsplit, ha⟩] at hmore
        exact hmore rfl
      rw [hptr] at hcstr
      have hplain : ∀ {a : List Byte}, (∀ c ∈ a, c ∈ cstr buf) → SEP ∉ a → Body.Plain a :=
        fun ha hsep c hc => ⟨mem_cstr (ha c hc), fun he => hsep (he ▸ hc)⟩
      obtain ⟨rest, hbuf, hrest⟩ := cstr_append_rest buf
      obtain ⟨hpos, hle⟩ := not_or.mp hlen
      have hnum := sizeOfLong_le (not_lt.mp hle) (by decide)
      have hlen : sizeOfLong (atol ptr2) = (atol ptr2).toNat := by omega
      simp only [hlen] at hpos hle hnum ⊢
      refine h key start ptr2 rest ?_ hrest (hplain (fun c hc => ?_) hkey)
        (hplain (fun c hc => ?_) hstart) (hplain (fun c hc => ?_) hptr2) (not_lt.mp hoff)
        (by omega) (by omega)
      · rw [hcstr] at hbuf
        simpa only [List.append_assoc, List.cons_append] using hbuf
      · rw [hcstr]
        exact List.mem_append_left _ hc
      · rw [hcstr]
        exact List.mem_append_right _ (List.mem_cons_of_mem _ (List.mem_append_left _ hc))
      · rw [hcstr]
        exact List.mem_append_right _ (List.mem_cons_of_mem _
          (List.mem_append_right _ (List.mem_cons_of_mem _ hc)))

/-- Reading two parts one after the other. -/
theorem readAt_add (file : List Byte) (off m n : ℕ) :
    readAt file off (m + n) = readAt file off m ++ readAt file (off + m) n := by
  rw [readAt, List.take_add, List.drop_drop, readAt, readAt]

/-- What the two reads have given is a record. -/
theorem RawRecord.ok_of_reads {file : List Byte} {off : ℕ} {r : RawRecord} {head buf : List Byte}
    (hhead : readAt file off (PTR_SZ + IDXLEN_SZ) = head)
    (hlen : head.length = PTR_SZ + IDXLEN_SZ)
    (hptr : r.ptr = head.take PTR_SZ) (hsize : r.size = head.drop PTR_SZ)
    (hidx : ¬ (sizeOfLong (atol r.size) < IDXLEN_MIN ∨ sizeOfLong (atol r.size) > IDXLEN_MAX))
    (htext : readAt file (off + (PTR_SZ + IDXLEN_SZ)) (sizeOfLong (atol r.size)) = buf)
    (hblen : buf.length = sizeOfLong (atol r.size)) (hlast : buf.getLast? = some NEWLINE)
    (hbuf : buf.dropLast = r.key ++ SEP :: (r.start ++ SEP :: (r.len ++ r.rest)))
    (hrest : ∀ c ∈ r.rest.head?, c = 0) (hkey : Body.Plain r.key) (hstart : Body.Plain r.start)
    (hlen' : Body.Plain r.len) (hdatoff : 0 ≤ atol r.start) (hpos : 0 < atol r.len)
    (hle : atol r.len ≤ DATLEN_MAX) : r.Ok ∧ r.text = buf ∧ Contains file off r.bytes := by
  obtain ⟨hmin, hmax⟩ := not_or.mp hidx
  have hbufeq : r.text = buf := by
    rw [RawRecord.text, ← hbuf]
    exact List.dropLast_append_getLast? _ hlast
  have hnum := sizeOfLong_le (not_lt.mp hmax) (by decide)
  refine ⟨?_, hbufeq, ?_⟩
  · refine { ended := hrest, key := hkey, start := hstart, len := hlen', datoff := hdatoff,
             datlen_pos := hpos, datlen_le := hle, length_ptr := ?_, length_size := ?_, size := ?_,
             min_le := ?_, le_max := ?_ }
    · rw [hptr, List.length_take, hlen]
      decide
    · rw [hsize, List.length_drop, hlen]
      decide
    · rw [hbufeq, hblen, ← hnum]
    · rw [hbufeq, hblen]
      exact not_lt.mp hmin
    · rw [hbufeq, hblen]
      exact not_lt.mp hmax
  · have hsplit : r.ptr ++ r.size = head := by
      rw [hptr, hsize, List.take_append_drop]
    rw [Contains, RawRecord.bytes, hsplit, hbufeq, List.length_append, readAt_add, hlen, hhead, hblen,
      htext]

/-- Either there is nothing left to read, or there is a record that is accepted. -/
theorem ends_readidxRaw {offset : ℤ} (db : DB) {post : DB × ℤ → Pos → Prop}
    (hend : offset = 0 → files.idx.length ≤ pos.idx → post ({ db with idxoff := pos.idx }, -1) pos)
    (hrec : ∀ r : RawRecord, r.Ok → 0 ≤ offset →
      Contains files.idx (readsFrom offset pos) r.bytes →
      post (r.located db (readsFrom offset pos), atol r.ptr)
        { pos with idx := readsFrom offset pos + r.bytes.length }) :
    Ends files (dbReadidx db offset) pos post := by
  unfold dbReadidx
  refine Ends.bind (Ends.seekRead (fun _ => ?_) fun hoff => ?_)
  · exact Ends.bind (Ends.errDumpIf fun hne => absurd rfl hne)
  refine Ends.bind (Ends.errDumpIf fun _ => Ends.bind (Ends.call rfl ?_))
  generalize hhead : readAt _ _ (PTR_SZ + IDXLEN_SZ) = head
  split
  · rename_i hnil
    obtain ⟨hlen, hzero⟩ := hnil
    have hfrom : readsFrom offset pos = pos.idx := if_pos hzero
    rw [← hhead] at hlen
    simp only [readAt, List.length_take, List.length_drop, PTR_SZ, IDXLEN_SZ] at hlen
    have hle : files.idx.length ≤ readsFrom offset pos := by
      change min _ (files.idx.length - readsFrom offset pos) = 0 at hlen
      omega
    obtain rfl : head = [] := by
      rw [← hhead]
      refine List.length_eq_zero_iff.mp ?_
      simp only [readAt, List.length_take, List.length_drop, PTR_SZ, IDXLEN_SZ]
      exact hlen
    rw [hfrom] at hle ⊢
    exact hend hzero hle
  · refine Ends.bind (Ends.errDumpIf fun hlen => Ends.bind (Ends.errDumpIf fun hidx => ?_))
    refine Ends.bind (Ends.call rfl ?_)
    generalize htext : readAt _ _ (sizeOfLong _) = buf
    refine Ends.bind (Ends.errDumpIf fun hblen => Ends.bind (Ends.errDumpIf fun hlast => ?_))
    refine Ends.bind (ends_parse _ _ fun key start len rest hbuf hrest hkey hstart hlen' hdatoff
      hpos hle => ?_)
    have hh : head.length = PTR_SZ + IDXLEN_SZ := not_not.mp hlen
    obtain ⟨hr, hbufeq, hat⟩ := @RawRecord.ok_of_reads files.idx (readsFrom offset pos)
      ⟨head.take PTR_SZ, head.drop PTR_SZ, key, start, len, rest⟩ head buf hhead hh rfl rfl hidx
      (hh ▸ htext) (not_not.mp hblen) (not_not.mp hlast) hbuf hrest hkey hstart hlen' hdatoff hpos
      hle
    have hpost := hrec _ hr hoff hat
    rw [RawRecord.located, hr.length_bytes, hbufeq] at hpost
    have hblen' : buf.length = sizeOfLong (atol (head.drop PTR_SZ)) := not_not.mp hblen
    rw [← Nat.add_assoc, ← hh, hblen'] at hpost
    have hlast' : readsFrom offset pos + head.length + buf.length =
      readsFrom offset pos + head.length + sizeOfLong (atol (head.drop PTR_SZ)) := by rw [hblen']
    change post _ { pos with idx := readsFrom offset pos + head.length + buf.length }
    rw [hlast']
    exact hpost

end Ends

section Strings

/-- The string at `k` in the buffer, which ends before a null in the buffer. -/
def StringAt (buf : List Byte) (k : ℕ) (text : List Byte) : Prop :=
  cstr (buf.drop k) = text ∧ 0 ∈ buf.drop k

theorem stringAt_append {a text b : List Byte} {k : ℕ} (hk : a.length = k)
    (htext : ∀ c ∈ text, c ≠ 0) : StringAt (a ++ (text ++ 0 :: b)) k text := by
  rw [StringAt, List.drop_left' hk]
  constructor
  · refine cstr_append htext fun c hc => ?_
    rw [List.head?_cons] at hc
    exact (Option.some.inj hc).symm
  · exact List.mem_append_right _ List.mem_cons_self

theorem set_append_cons (a b : List Byte) (x y : Byte) {k : ℕ} (hk : k = a.length) :
    (a ++ x :: b).set k y = a ++ y :: b := by
  rw [hk, List.set_append_right _ _ (Nat.le_refl _), Nat.sub_self, List.set_cons_zero]

variable {r : RawRecord}

theorem RawRecord.nulled_text (r : RawRecord) :
    nulled r.text r.key.length (r.key.length + 1 + r.start.length) =
      r.key ++ 0 :: (r.start ++ 0 :: (r.len ++ (r.rest ++ [0]))) := by
  have hsep : ∀ a b c : List Byte, ∀ x y : Byte,
      a ++ x :: (b ++ y :: c) = (a ++ x :: b) ++ y :: c := fun a b c x y => by
    rw [List.append_assoc, List.cons_append]
  have hlast : r.text.set (r.text.length - 1) 0 =
      r.key ++ SEP :: (r.start ++ SEP :: (r.len ++ (r.rest ++ [0]))) := by
    rw [RawRecord.text, set_append_cons _ _ _ _ (by
      rw [List.length_append, List.length_singleton, Nat.add_sub_cancel])]
    simp only [List.append_assoc, List.cons_append]
  rw [nulled, hlast, set_append_cons _ _ _ _ rfl, hsep, set_append_cons _ _ _ _ (by
    rw [List.length_append, List.length_cons]
    omega), ← hsep]

variable (hr : r.Ok)
include hr

/-- The three strings of a record that is accepted. -/
theorem RawRecord.Ok.stringAt {buf : List Byte}
    (hbuf : buf = nulled r.text r.key.length (r.key.length + 1 + r.start.length)) :
    StringAt buf 0 r.key ∧ StringAt buf (r.key.length + 1) r.start ∧
      StringAt buf (r.key.length + 1 + r.start.length + 1) r.len := by
  obtain ⟨tail, htail⟩ : ∃ tail, r.rest ++ [0] = 0 :: tail := by
    have hended := hr.ended
    cases hrest : r.rest with
    | nil => exact ⟨[], rfl⟩
    | cons c rest =>
      rw [hrest] at hended
      obtain rfl := hended c rfl
      exact ⟨rest ++ [0], rfl⟩
  rw [r.nulled_text, htail] at hbuf
  rw [hbuf]
  refine ⟨?_, ?_, ?_⟩
  · exact @stringAt_append [] r.key _ 0 rfl fun c hc => (hr.key c hc).1
  · have hsplit : r.key ++ 0 :: (r.start ++ 0 :: (r.len ++ 0 :: tail)) =
        (r.key ++ [0]) ++ (r.start ++ 0 :: (r.len ++ 0 :: tail)) := by
      simp only [List.append_assoc, List.cons_append, List.nil_append]
    rw [hsplit]
    refine stringAt_append ?_ fun c hc => (hr.start c hc).1
    rw [List.length_append, List.length_singleton]
  · have hsplit : r.key ++ 0 :: (r.start ++ 0 :: (r.len ++ 0 :: tail)) =
        (r.key ++ 0 :: (r.start ++ [0])) ++ (r.len ++ 0 :: tail) := by
      simp only [List.append_assoc, List.cons_append, List.nil_append]
    rw [hsplit]
    refine stringAt_append ?_ fun c hc => (hr.len c hc).1
    simp only [List.length_append, List.length_cons, List.length_nil]
    omega

end Strings

/-- What _db_readidx promises of a result other than the end of the file: the chain
pointer and the numbers are in range, and the strings that it has found, between
separators at `i` and `j`, end inside the index buffer. -/
structure SafelyRead (file : List Byte) (off : ℕ) (db : DB) (v : ℤ) : Prop where
  nonneg : 0 ≤ v
  datlen_pos : 1 ≤ db.datlen
  datlen_le : db.datlen ≤ DATLEN_MAX
  datoff : 0 ≤ db.datoff
  idxlen_le : db.idxlen ≤ IDXLEN_MAX
  strings : ∃ text i j start len, text = readAt file (off + (PTR_SZ + IDXLEN_SZ)) db.idxlen ∧
    text.length = db.idxlen ∧ text[i]? = some SEP ∧ text[j]? = some SEP ∧
    StringAt (nulled text i j) 0 db.idxbuf ∧
    StringAt (nulled text i j) (i + 1) start ∧ db.datoff = atol start ∧
    StringAt (nulled text i j) (j + 1) len ∧ db.datlen = atol len

/-- Whenever _db_readidx returns, it is at the end of the file or has read a record. -/
def ReadsSafely (files : Files) (pos : Pos) (db : DB) (offset : ℤ) : Prop :=
  ∀ db' v s', (dbReadidx db offset).run fileCall (files, pos) = (.ok (db', v), s') →
    (v = -1 ∧ offset = 0 ∧ files.idx.length ≤ pos.idx) ∨
      SafelyRead files.idx (readsFrom offset pos) db' v

/-- Whenever db_nextrec returns null, its last call of _db_readidx was at the end of the
index file. -/
def EndsSafely (fuel : ℕ) (files : Files) (pos : Pos) (db : DB) : Prop :=
  ∀ db' s', (dbNextrec fuel db).run fileCall (files, pos) = (.ok (db', none), s') →
    (files.idx.length : ℤ) ≤ db'.idxoff

/-- A record that _db_readidx accepts although its chain pointer is negative. -/
def NegativeAt (file : List Byte) (off : ℕ) : Prop :=
  ∃ r : RawRecord, r.Ok ∧ Contains file off r.bytes ∧ atol r.ptr < 0

/-- The offsets that db_nextrec comes to when it passes over deleted records. -/
inductive Passes (file : List Byte) : ℕ → ℕ → Prop
  | stay (off : ℕ) : Passes file off off
  | pass {off off' : ℕ} {r : RawRecord} (hr : r.Ok) (hat : Contains file off r.bytes)
    (hptr : 0 ≤ atol r.ptr) (hblank : Blank r.key) (h : Passes file (off + r.bytes.length) off') :
    Passes file off off'

section Safe

/-- The result for a record with an admissible chain pointer. -/
theorem RawRecord.Ok.safelyRead {r : RawRecord} (hr : r.Ok) {off : ℕ} (hptr : 0 ≤ atol r.ptr)
    (hat : Contains files.idx off r.bytes) (db : DB) :
    SafelyRead files.idx off (r.located db off) (atol r.ptr) := by
  have hpos := hr.datlen_pos
  have hle := hr.datlen_le
  have hdatlen : ((r.located db off).datlen : ℤ) = atol r.len := Int.toNat_of_nonneg hpos.le
  refine { nonneg := hptr, datlen_pos := ?_, datlen_le := ?_, datoff := hr.datoff,
           idxlen_le := hr.le_max, strings := ?_ }
  · omega
  · omega
  · have hall : Contains files.idx off ((r.ptr ++ r.size) ++ r.text ++ []) := by
      rw [List.append_nil]
      exact hat
    have hread := hall.inside.readAt_eq rfl
    rw [hr.length_head] at hread
    obtain ⟨hkey, hstart, hlen⟩ := hr.stringAt rfl
    refine ⟨r.text, _, _, r.start, r.len, hread.symm, rfl, ?_, ?_, hkey, hstart, rfl, hlen, hdatlen⟩
    · rw [RawRecord.text, List.append_assoc, List.getElem?_append_right (Nat.le_refl _),
        Nat.sub_self]
      rfl
    · have hsplit : r.text = (r.key ++ SEP :: r.start) ++ SEP :: (r.len ++ r.rest ++ [NEWLINE]) := by
        simp only [RawRecord.text, List.append_assoc, List.cons_append]
      have hlen : r.key.length + 1 + r.start.length = (r.key ++ SEP :: r.start).length := by
        rw [List.length_append, List.length_cons]
        omega
      rw [hsplit, hlen, List.getElem?_append_right (Nat.le_refl _), Nat.sub_self]
      rfl

theorem readsSafely_iff (db : DB) (offset : ℤ) :
    ReadsSafely files pos db offset ↔
      ¬ (0 ≤ offset ∧ NegativeAt files.idx (readsFrom offset pos)) := by
  constructor
  · rintro hsafe ⟨hoff, r, hr, hat, hneg⟩
    rcases hsafe _ _ _ (hr.runs_readidx hoff db hat).run with ⟨-, hzero, hle⟩ | hread
    · have hinside := hr.inside hat
      have hfrom : readsFrom offset pos = pos.idx := if_pos hzero
      rw [hfrom] at hinside
      omega
    · exact absurd hread.nonneg (not_le.mpr hneg)
  · intro hnot db' v s' hrun
    have hends : Ends files (dbReadidx db offset) pos fun w _ =>
        (w.2 = -1 ∧ offset = 0 ∧ files.idx.length ≤ pos.idx) ∨
          SafelyRead files.idx (readsFrom offset pos) w.1 w.2 := by
      refine ends_readidxRaw db (fun hzero hle => Or.inl ⟨rfl, hzero, hle⟩) fun r hr hoff hat => ?_
      have hptr : 0 ≤ atol r.ptr := not_lt.mp fun hneg => hnot ⟨hoff, r, hr, hat, hneg⟩
      exact Or.inr (hr.safelyRead hptr hat db)
    exact (hends.of_run hrun).2

/-- The loop of db_nextrec either comes to a record that is not deleted, or to the end
of the file, or to a negative pointer. -/
theorem ends_nextrecLoopRaw {bound : ℕ} (db : DB) (hbound : files.idx.length < pos.idx + 17 * bound)
    (hpos : 0 < bound) {post : DB × Bool → Pos → Prop}
    (hend : ∀ db' pos', (files.idx.length : ℤ) ≤ db'.idxoff → post (db', false) pos')
    (hnot : ¬ ∃ off, Passes files.idx pos.idx off ∧ NegativeAt files.idx off)
    (hmore : ∀ db' pos', post (db', true) pos') : Ends files (nextrecLoop bound db) pos post := by
  induction bound generalizing db pos with
  | zero => omega
  | succ bound ih =>
    refine Ends.bind (ends_readidxRaw db (fun _ hle => ?_) fun r hr _ hat => ?_)
    · simp only
      rw [if_pos (by decide)]
      exact hend _ _ (Int.ofNat_le.mpr hle)
    · have hfrom : readsFrom 0 pos = pos.idx := if_pos rfl
      rw [hfrom] at hat ⊢
      simp only
      obtain ⟨hge, hle⟩ := hr.inside hat
      have hptr : ¬ atol r.ptr < 0 := fun hneg => hnot ⟨_, .stay _, r, hr, hat, hneg⟩
      rw [if_neg hptr]
      split
      · rename_i hblank
        refine ih _ (by simp only; omega) (by omega) ?_
        rintro ⟨off, hpass, hneg⟩
        have hb : Blank r.key := fun c hc => of_decide_eq_true (List.all_eq_true.mp hblank c hc)
        exact hnot ⟨off, .pass hr hat (not_lt.mp hptr) hb hpass, hneg⟩
      · exact hmore _ _

/-- The loop of db_nextrec that comes to a negative pointer. -/
theorem runs_nextrecLoopRaw {x off : ℕ} (hpass : Passes files.idx x off)
    (hneg : NegativeAt files.idx off) {bound : ℕ} (db : DB) {pos : Pos} (hx : pos.idx = x)
    (hbound : files.idx.length < x + 17 * bound) : ∃ db' pos',
    Runs (nextrecLoop bound db) (files, pos) [] (.ok (db', false)) (files, pos') ∧
      db'.idxoff = off := by
  have hfrom : readsFrom 0 pos = pos.idx := if_pos rfl
  induction hpass generalizing bound db pos with
  | stay off =>
    obtain ⟨r, hr, hat, hptr⟩ := hneg
    obtain ⟨hge, hle⟩ := hr.inside hat
    obtain ⟨bound, rfl⟩ := Nat.exists_eq_succ_of_ne_zero (show bound ≠ 0 by omega)
    rw [hx] at hfrom
    rw [← hfrom] at hat
    refine ⟨r.located db off, { pos with idx := off + r.bytes.length }, ?_, rfl⟩
    refine (hr.runs_readidx (Int.le_refl 0) db hat).next ?_
    simp only
    rw [if_pos hptr, hfrom]
    exact Runs.ret _ _
  | @pass x off r hr hat hptr hblank hpass ih =>
    obtain ⟨hge, hle⟩ := hr.inside hat
    obtain ⟨bound, rfl⟩ := Nat.exists_eq_succ_of_ne_zero (show bound ≠ 0 by omega)
    rw [hx] at hfrom
    rw [← hfrom] at hat
    obtain ⟨db', pos', hruns, hoff⟩ := @ih hneg bound (r.located db x)
      { pos with idx := x + r.bytes.length } rfl (by omega) rfl
    refine ⟨db', pos', ?_, hoff⟩
    refine (hr.runs_readidx (Int.le_refl 0) db hat).next ?_
    have hkey : (r.located db (readsFrom 0 pos)).idxbuf = r.key := rfl
    simp only
    rw [if_neg (not_lt.mpr hptr), hkey, if_pos ((all_space_iff r.key).mpr hblank), hfrom]
    exact hruns

variable (hfuel : files.idx.length < 17 * fuel)
include hfuel

theorem endsSafely_iff (db : DB) : EndsSafely fuel files pos db ↔
    ¬ ∃ off, Passes files.idx pos.idx off ∧ NegativeAt files.idx off := by
  constructor
  · rintro hsafe ⟨off, hpass, hneg⟩
    obtain ⟨db', pos', hloop, hoff⟩ :=
      @runs_nextrecLoopRaw files _ off hpass hneg fuel db pos rfl (by omega)
    have hruns : Runs (dbNextrec fuel db) (files, pos) [] (.ok (db', none)) (files, pos') := by
      refine (Runs.lock _ _ _ _ _).next ((Runs.check (by decide) _).next (hloop.next ?_))
      refine (Runs.ret _ _).next ((Runs.unlock _ _ _ _).next ?_)
      exact (Runs.check (by decide) _).next (Runs.ret _ _)
    have hle := hsafe db' _ hruns.run
    obtain ⟨r, hr, hat, -⟩ := hneg
    have hinside := hr.inside hat
    omega
  · intro hnot db' s' hrun
    have hends : Ends files (dbNextrec fuel db) pos fun w _ =>
        w.2 = none → (files.idx.length : ℤ) ≤ w.1.idxoff := by
      refine Ends.bind (Ends.call rfl (Ends.bind (Ends.errDumpIf fun _ => ?_)))
      refine Ends.bind (ends_nextrecLoopRaw db (by omega) (by omega) (fun db₁ pos₁ hle => ?_) hnot
        fun db₁ pos₁ => ?_)
      · refine Ends.bind ?_
        rw [if_neg Bool.false_ne_true]
        exact Ends.bind (Ends.call rfl (Ends.bind (Ends.errDumpIf fun _ _ => hle)))
      · refine Ends.bind ?_
        rw [if_pos rfl]
        refine Ends.bind (Ends.bind (Ends.seek fun v pos₂ => ?_))
        refine Ends.bind (Ends.errDumpIf fun _ => Ends.bind (Ends.readDat fun bytes pos₃ => ?_))
        refine Ends.bind (Ends.errDumpIf fun _ => Ends.bind (Ends.errDumpIf fun _ => ?_))
        exact Ends.bind (Ends.call rfl (Ends.bind (Ends.errDumpIf fun _ => nofun)))
    exact (hends.of_run hrun).2 rfl

/-- Of arbitrary index bytes: a call of _db_readidx is safe unless the record there has a
negative chain pointer, and db_nextrec finds the end of the file unless it comes to
such a record. -/
theorem reads_safely (db : DB) (offset : ℤ) :
    (ReadsSafely files pos db offset ↔
      ¬ (0 ≤ offset ∧ NegativeAt files.idx (readsFrom offset pos))) ∧
    (EndsSafely fuel files pos db ↔
      ¬ ∃ off, Passes files.idx pos.idx off ∧ NegativeAt files.idx off) :=
  ⟨readsSafely_iff db offset, endsSafely_iff hfuel db⟩

end Safe

/-- The record "a" with the data offset 0 and the data length 2, behind the pointer 0. -/
def plainRecord : List Byte := [32, 32, 32, 32, 32, 32, 48, 32, 32, 32, 54, 97, 58, 48, 58, 50, 10]

theorem reads_safely_plain : ReadsSafely ⟨plainRecord, []⟩ ⟨0, 0⟩ {} 0 := by
  refine ((@reads_safely 2 ⟨plainRecord, []⟩ ⟨0, 0⟩ (by decide) {} 0).1).mpr ?_
  rintro ⟨-, r, hr, hat, hneg⟩
  rw [hr.ptr_eq hat] at hneg
  revert hneg
  decide

/-- A database whose first record is that one behind the pointer -1, with another record
after it. -/
def negativeFirst : Files :=
  ⟨emptyTable ++ [32, 32, 32, 32, 32, 45, 49, 32, 32, 32, 54, 97, 58, 48, 58, 50, 10] ++ plainRecord,
    [120, 10]⟩

/-- _db_readidx returns -1 before the end of the file. -/
def readsBefore (files : Files) : Outcome (DB × ℤ) × (Files × Pos) → Bool
  | (.ok (_, v), _) => decide (v = -1) && decide (967 < files.idx.length)
  | _ => false

/-- db_nextrec returns null before the end of the file. -/
def endsBefore (files : Files) :
    Outcome (DB × Option (List Byte × List Byte)) × (Files × Pos) → Bool
  | (.ok (db, none), _) => decide (db.idxoff < files.idx.length)
  | _ => false

/-- After db_rewind, _db_readidx returns -1 at the first record and db_nextrec null. -/
theorem negative_pointer : ¬ ReadsSafely negativeFirst ⟨967, 0⟩ openedHandle 0 ∧
    ¬ EndsSafely 100 negativeFirst ⟨967, 0⟩ openedHandle := by
  constructor
  · intro hsafe
    have hrun : readsBefore negativeFirst ((dbReadidx openedHandle 0).run fileCall
        (negativeFirst, ⟨967, 0⟩)) = true := by decide +kernel
    unfold readsBefore at hrun
    split at hrun
    · rename_i db v s heq
      obtain ⟨hv, hlt⟩ := Bool.and_eq_true_iff.mp hrun
      rcases hsafe db v s heq with ⟨-, -, hend⟩ | hread
      · exact absurd hend (not_le.mpr (of_decide_eq_true hlt))
      · exact absurd hread.nonneg (by rw [of_decide_eq_true hv]; decide)
    · cases hrun
  · intro hsafe
    have hrun : endsBefore negativeFirst ((dbNextrec 100 openedHandle).run fileCall
        (negativeFirst, ⟨967, 0⟩)) = true := by decide +kernel
    unfold endsBefore at hrun
    split at hrun
    · rename_i db s heq
      exact absurd (hsafe db s heq) (not_le.mpr (of_decide_eq_true hrun))
    · cases hrun

end Apue.Db
