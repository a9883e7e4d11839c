import Apue.DbRecords
import Apue.DbRuns
import Apue.Pointers

/-!
The functions of the library that only read. `ReadWp known` follows a program
that seeks and reads nothing but bytes that are known to stand at their
offsets, and says what it returns. The known bytes may come from one state of
the files or from every state that other processes can bring about while a
lock is held, so the results here serve both.
-/
namespace Apue.Db

open Programs Decimal ByteFiles Pointers

/-- Which bytes are known to stand where. -/
abbrev Knowledge := Fd → ℕ → List Byte → Prop

def ReadWp (known : Knowledge) {α : Type} : Prog sig α → Pos → (α → Pos → Prop) → Prop
  | .ret a, pos, post => post a pos
  | .call (.lseek fd off .seekSet) k, pos, post =>
    0 ≤ off ∧ ReadWp known (k off) (pos.set fd off.toNat) post
  | .call (.read fd n) k, pos, post =>
    ∃ bytes, bytes.length = n ∧ known fd (pos.get fd) bytes ∧
      ReadWp known (k bytes) (pos.set fd (pos.get fd + n)) post
  | _, _, _ => False

namespace ReadWp

variable {known : Knowledge} {α β : Type}

theorem bind {p : Prog sig α} {f : α → Prog sig β} {pos : Pos} {post : β → Pos → Prop}
    (h : ReadWp known p pos fun a pos' => ReadWp known (f a) pos' post) :
    ReadWp known (p >>= f) pos post := by
  induction p generalizing pos with
  | ret a => exact h
  | abort msg => exact h
  | diverge => exact h
  | call c k ih =>
    cases c with
    | lseek fd off wh =>
      cases wh with
      | seekSet => exact ⟨h.1, ih _ h.2⟩
      | seekCur => exact h
      | seekEnd => exact h
    | read fd n =>
      obtain ⟨bytes, hlen, hknown, hk⟩ := h
      exact ⟨bytes, hlen, hknown, ih _ hk⟩
    | write fd bs => exact h
    | setlkw fd type start len => exact h
    | unlck fd start len => exact h
    | fstat fd => exact h

theorem seek {fd : Fd} {off : ℕ} {pos : Pos} {post : ℤ → Pos → Prop}
    (h : post off (pos.set fd off)) : ReadWp known (lseek fd off .seekSet) pos post :=
  ⟨Int.natCast_nonneg off, by rw [Int.toNat_natCast]; exact h⟩

theorem read {fd : Fd} {n : ℕ} {pos : Pos} {bytes : List Byte} {post : List Byte → Pos → Prop}
    (hlen : bytes.length = n) (hknown : known fd (pos.get fd) bytes)
    (h : post bytes (pos.set fd (pos.get fd + n))) : ReadWp known (Db.read fd n) pos post :=
  ⟨bytes, hlen, hknown, h⟩

theorem errDumpIf {cond : Prop} [Decidable cond] {msg : String} {pos : Pos}
    {post : Unit → Pos → Prop} (hc : ¬ cond) (h : post () pos) :
    ReadWp known (Db.errDumpIf cond msg) pos post := by
  unfold Db.errDumpIf
  rw [if_neg hc]
  exact h

/-- Run alone on files that hold the known bytes, the program returns and writes
nothing. -/
theorem runs {p : Prog sig α} {pos : Pos} {post : α → Pos → Prop} (h : ReadWp known p pos post)
    {files : Files} (hfiles : ∀ fd off bytes, known fd off bytes →
      Contains (files.get fd) off bytes) :
    ∃ a pos', Runs p (files, pos) [] (.ok a) (files, pos') ∧ post a pos' := by
  induction p generalizing pos with
  | ret a => exact ⟨a, pos, Runs.ret a _, h⟩
  | abort msg => exact h.elim
  | diverge => exact h.elim
  | call c k ih =>
    cases c with
    | lseek fd off wh =>
      cases wh with
      | seekSet =>
        obtain ⟨a, pos', hruns, hpost⟩ := ih _ h.2
        have hcall : fileCall (.lseek fd off .seekSet) (files, pos) =
            (off, files, pos.set fd off.toNat) := by
          simp only [fileCall, seekBase, Int.zero_add, if_neg (not_lt.mpr h.1)]
        exact ⟨a, pos', (Runs.call rfl hcall).next hruns, hpost⟩
      | seekCur => exact h.elim
      | seekEnd => exact h.elim
    | read fd n =>
      obtain ⟨bytes, hlen, hknown, hk⟩ := h
      obtain ⟨a, pos', hruns, hpost⟩ := ih _ hk
      have hcall : fileCall (.read fd n) (files, pos) =
          (bytes, files, pos.set fd (pos.get fd + n)) := by
        simp only [fileCall, (hfiles _ _ _ hknown).readAt_eq hlen, hlen]
      exact ⟨a, pos', (Runs.call rfl hcall).next hruns, hpost⟩
    | write fd bs => exact h.elim
    | setlkw fd type start len => exact h.elim
    | unlck fd start len => exact h.elim
    | fstat fd => exact h.elim

theorem run {p : Prog sig α} {pos : Pos} {post : α → Pos → Prop} (h : ReadWp known p pos post)
    {files : Files} (hfiles : ∀ fd off bytes, known fd off bytes →
      Contains (files.get fd) off bytes) :
    ∃ a pos', p.run fileCall (files, pos) = (.ok a, files, pos') ∧ post a pos' := by
  obtain ⟨a, pos', hruns, hpost⟩ := h.runs hfiles
  exact ⟨a, pos', hruns.run, hpost⟩

end ReadWp

/-- What is known about one index record. -/
structure HasRec (known : Knowledge) (o ptr : ℕ) (b : Body) : Prop where
  head : known .idx o (recHead ptr b)
  text : known .idx (o + (PTR_SZ + IDXLEN_SZ)) b.text
  ptr_le : ptr ≤ PTR_MAX
  ok : b.Ok
  pos : 0 < o

/-- The fields that _db_readidx sets, for the record at `o`. -/
structure DB.Located (db : DB) (o ptr : ℕ) (b : Body) : Prop where
  idxoff : db.idxoff = o
  ptrval : db.ptrval = ptr
  idxbuf : db.idxbuf = b.key
  datoff : db.datoff = b.datoff
  datlen : db.datlen = b.datlen

variable {known : Knowledge}

theorem readWp_readptr {a v : ℕ} (hv : v ≤ PTR_MAX)
    (hknown : known .idx a (ptrText v)) {pos : Pos} {post : ℤ → Pos → Prop}
    (h : ∀ pos', post v pos') : ReadWp known (dbReadptr a) pos post := by
  refine ReadWp.bind (ReadWp.seek (ReadWp.bind (ReadWp.errDumpIf (by omega) ?_)))
  refine ReadWp.bind (ReadWp.read (length_ptrText hv) hknown ?_)
  refine ReadWp.bind (ReadWp.errDumpIf (by simp [length_ptrText hv]) ?_)
  rw [ptrText, atol_padLeft]
  exact h _

theorem getLast?_text (b : Body) : b.text.getLast? = some NEWLINE := by
  rw [Body.text, idxText, List.getLast?_concat]

theorem readWp_readidx {o ptr : ℕ} {b : Body} (hrec : HasRec known o ptr b) (db : DB)
    {pos : Pos} {post : DB × ℤ → Pos → Prop}
    (h : ∀ db' pos', db.SameChain db' → db'.ptroff = db.ptroff → db'.Located o ptr b →
      post (db', ptr) pos') : ReadWp known (dbReadidx db o) pos post := by
  have ho : (o : ℤ) ≠ 0 := by
    have := hrec.pos
    omega
  have hhead := length_recHead hrec.ptr_le hrec.ok.le_max
  have hmin := hrec.ok.min_le
  have hmax := hrec.ok.le_max
  unfold dbReadidx
  rw [if_neg ho]
  refine ReadWp.bind (ReadWp.seek (ReadWp.bind (ReadWp.errDumpIf (by omega) ?_)))
  refine ReadWp.bind (ReadWp.read hhead hrec.head ?_)
  rw [if_neg (fun hc => ho hc.2)]
  refine ReadWp.bind (ReadWp.errDumpIf (by simp [hhead]) ?_)
  simp only [atol_recHead_ptr hrec.ptr_le, atol_recHead_len hrec.ptr_le, sizeOfLong_natCast]
  refine ReadWp.bind (ReadWp.errDumpIf (by omega) ?_)
  refine ReadWp.bind (ReadWp.read rfl hrec.text ?_)
  refine ReadWp.bind (ReadWp.errDumpIf (by simp) ?_)
  refine ReadWp.bind (ReadWp.errDumpIf (by simp [getLast?_text]) ?_)
  rw [parseIdx_text hrec.ok]
  exact h _ _ ⟨rfl, rfl, rfl⟩ rfl ⟨rfl, rfl, rfl, rfl, rfl⟩

theorem readWp_readdat {db : DB} {d : ℕ} {data : List Byte} (hoff : db.datoff = d)
    (hlen : db.datlen = data.length + 1) (hdata : ∀ c ∈ data, c ≠ 0)
    (hknown : known .dat d (data ++ [NEWLINE])) {pos : Pos} {post : DB → Pos → Prop}
    (h : ∀ pos', post { db with datbuf := data } pos') :
    ReadWp known (dbReaddat db) pos post := by
  refine ReadWp.bind ?_
  rw [hoff]
  refine ReadWp.seek (ReadWp.bind (ReadWp.errDumpIf (by omega) ?_))
  refine ReadWp.bind (ReadWp.read (by simp [hlen]) hknown ?_)
  refine ReadWp.bind (ReadWp.errDumpIf (by simp [hlen]) ?_)
  refine ReadWp.bind (ReadWp.errDumpIf (by simp) ?_)
  rw [List.dropLast_concat, cstr_eq_self hdata, ← hoff]
  exact h _

/-- The search of a chain `l`: either it stops at the first record with the
key, with the pointer before that record in `ptroff`, or the key is not there. -/
theorem readWp_findLoop {ptr : ℕ → ℕ} (body : ℕ → Body) (key : List Byte) {l : List ℕ}
    {fuel : ℕ} (hfuel : l.length < fuel) {v c : ℕ} (hpath : Path ptr v l 0)
    (hrecs : ∀ o ∈ l, HasRec known o (ptr o) (body o)) {db : DB} (hc : db.ptroff = c)
    {pos : Pos} {post : DB × ℤ → Pos → Prop}
    (hfound : ∀ pre o rest db' pos', l = pre ++ o :: rest → (body o).key = key →
      db.SameChain db' → db'.Located o (ptr o) (body o) → db'.ptroff = lastCell c pre →
      post (db', o) pos')
    (hmissing : ∀ db' pos', (∀ o ∈ l, (body o).key ≠ key) → db.SameChain db' →
      post (db', 0) pos') :
    ReadWp known (findLoop fuel db key v) pos post := by
  induction l generalizing fuel v c db pos with
  | nil =>
    obtain ⟨fuel, rfl⟩ : ∃ f, fuel = f + 1 := ⟨fuel - 1, by simp at hfuel; omega⟩
    obtain rfl : v = 0 := hpath
    unfold findLoop
    rw [if_neg (by simp)]
    exact hmissing _ _ (fun o ho => absurd ho List.not_mem_nil) (DB.SameChain.refl db)
  | cons o l ih =>
    simp only [List.length_cons] at hfuel
    obtain ⟨fuel, rfl⟩ : ∃ f, fuel = f + 1 := ⟨fuel - 1, by omega⟩
    obtain ⟨rfl, hrest⟩ := hpath
    have hrec := hrecs v List.mem_cons_self
    have hv : (v : ℤ) ≠ 0 := by
      have := hrec.pos
      omega
    unfold findLoop
    rw [if_pos hv]
    refine ReadWp.bind (readWp_readidx hrec db fun db' pos' hsame hoff hloc => ?_)
    simp only [hloc.idxbuf]
    by_cases hkey : (body v).key = key
    · rw [if_pos hkey]
      exact hfound [] v l db' pos' rfl hkey hsame hloc (hoff.trans hc)
    · rw [if_neg hkey]
      refine ih (c := v) (by omega) hrest (fun o ho => hrecs o (List.mem_cons_of_mem _ ho)) rfl
        ?_ ?_
      · intro pre o rest db'' pos'' hl hk hsame' hloc' hoff'
        exact hfound (v :: pre) o rest db'' pos'' (by rw [hl]; rfl) hk (hsame.trans hsame')
          hloc' hoff'
      · intro db'' pos'' hmiss hsame'
        refine hmissing db'' pos'' (fun o ho => ?_) (hsame.trans hsame')
        rcases List.mem_cons.mp ho with rfl | ho
        · exact hkey
        · exact hmiss o ho

/-- The search of the free list for a record of the given sizes. -/
theorem readWp_findfreeLoop {ptr : ℕ → ℕ} (body : ℕ → Body) (keylen datlen : ℕ) {l : List ℕ}
    {fuel : ℕ} (hfuel : l.length < fuel) {v c : ℕ} (hpath : Path ptr v l 0)
    (hrecs : ∀ o ∈ l, HasRec known o (ptr o) (body o)) {db : DB}
    {pos : Pos} {post : DB × ℤ × ℤ → Pos → Prop}
    (hfound : ∀ pre o rest db' pos', l = pre ++ o :: rest → (body o).key.length = keylen →
      (body o).datlen = datlen → db.SameChain db' → db'.Located o (ptr o) (body o) →
      post (db', o, lastCell c pre) pos')
    (hmissing : ∀ db' save pos', (∀ o ∈ l, ¬ ((body o).key.length = keylen ∧
      (body o).datlen = datlen)) → db.SameChain db' → post (db', 0, save) pos') :
    ReadWp known (findfreeLoop fuel db keylen datlen c v) pos post := by
  induction l generalizing fuel v c db pos with
  | nil =>
    obtain ⟨fuel, rfl⟩ : ∃ f, fuel = f + 1 := ⟨fuel - 1, by simp at hfuel; omega⟩
    obtain rfl : v = 0 := hpath
    unfold findfreeLoop
    rw [if_neg (by simp)]
    exact hmissing _ _ _ (fun o ho => absurd ho List.not_mem_nil) (DB.SameChain.refl db)
  | cons o l ih =>
    simp only [List.length_cons] at hfuel
    obtain ⟨fuel, rfl⟩ : ∃ f, fuel = f + 1 := ⟨fuel - 1, by omega⟩
    obtain ⟨rfl, hrest⟩ := hpath
    have hrec := hrecs v List.mem_cons_self
    have hv : (v : ℤ) ≠ 0 := by
      have := hrec.pos
      omega
    unfold findfreeLoop
    rw [if_pos hv]
    refine ReadWp.bind (readWp_readidx hrec db fun db' pos' hsame hoff hloc => ?_)
    simp only [hloc.idxbuf, hloc.datlen]
    by_cases hfit : (body v).key.length = keylen ∧ (body v).datlen = datlen
    · rw [if_pos hfit]
      exact hfound [] v l db' pos' rfl hfit.1 hfit.2 hsame hloc
    · rw [if_neg hfit]
      refine ih (c := v) (by omega) hrest (fun o ho => hrecs o (List.mem_cons_of_mem _ ho)) ?_ ?_
      · intro pre o rest db'' pos'' hl hk hd hsame' hloc'
        exact hfound (v :: pre) o rest db'' pos'' (by rw [hl]; rfl) hk hd (hsame.trans hsame') hloc'
      · intro db'' save pos'' hmiss hsame'
        refine hmissing db'' save pos'' (fun o ho => ?_) (hsame.trans hsame')
        rcases List.mem_cons.mp ho with rfl | ho
        · exact hfit
        · exact hmiss o ho

end Apue.Db
