import Apue.Decimal

/-!
The loops readn, writen and treadn, which move n bytes with as many calls as it takes. Each is
the same loop over another call. A call may fail, move nothing, or move some of the bytes that
it is asked for, and the loop goes on from there. How the calls end is a script that nothing is
assumed about.
-/
namespace Apue.Transfers

open Decimal

def SSIZE_MAX : ℕ := 2 ^ 63 - 1

/-- The conversion to size_t. -/
def toSize (x : ℤ) : ℕ := (x % 2 ^ 64).toNat

/-- The conversion to ssize_t. -/
def toSsize (x : ℤ) : ℤ := x.bmod (2 ^ 64)

/-- An object in memory. None is larger than half of the address space. -/
structure Object where
  bytes : List Byte
  length_le : bytes.length ≤ SSIZE_MAX

/-- Store bytes at an offset of the object, if they fit. -/
def Object.store (o : Object) (ptr : ℕ) (data : List Byte) : Option Object :=
  if h : ptr + data.length ≤ o.bytes.length then
    some {
      bytes := o.bytes.take ptr ++ data ++ o.bytes.drop (ptr + data.length)
      length_le := by
        have hle := o.length_le
        simp only [List.length_append, List.length_take, List.length_drop]
        omega
    }
  else none

/-- How a call ends: select says that the time is up or fails, the call itself fails, or it
moves up to `k` bytes. -/
inductive Choice
  | expired
  | unselected
  | fail
  | upTo (k : ℕ)
  deriving DecidableEq

/-- The script of the calls to come, the calls so far with the number of bytes asked for and
the result, the bytes that are to be read, and those that were written. -/
structure World where
  script : ℕ → Choice
  calls : List (ℕ × ℤ)
  stream : List Byte
  sent : List Byte

/-- The call is over. -/
def World.done (w : World) (nbytes : ℕ) (result : ℤ) : World :=
  { w with
    script := fun i => w.script (i + 1)
    calls := w.calls ++ [(nbytes, result)] }

/-- A call for `nbytes` bytes at the offset `ptr` of an object. There is no result if the
object ends before. -/
abbrev Move := Object → ℕ → ℕ → World → Option (ℤ × Object × World)

def read : Move := fun o ptr nbytes w =>
  match w.script 0 with
  | .upTo k =>
    if ptr + nbytes ≤ o.bytes.length then do
      let data := w.stream.take (min k nbytes)
      let o ← o.store ptr data
      return (data.length, o, { w.done nbytes data.length with
        stream := w.stream.drop (min k nbytes) })
    else none
  | _ => some (-1, o, w.done nbytes (-1))

def write : Move := fun o ptr nbytes w =>
  match w.script 0 with
  | .upTo k =>
    if ptr + nbytes ≤ o.bytes.length then
      some ((min k nbytes : ℕ), o, { w.done nbytes (min k nbytes : ℕ) with
        sent := w.sent ++ (o.bytes.drop ptr).take (min k nbytes) })
    else none
  | _ => some (-1, o, w.done nbytes (-1))

/-- select on the one descriptor; the number of those that are ready. -/
def select (w : World) : ℤ :=
  match w.script 0 with
  | .expired => 0
  | .unselected => -1
  | _ => 1

def tread : Move := fun o ptr nbytes w =>
  if select w ≤ 0 then some (-1, o, w.done nbytes (-1)) else read o ptr nbytes w

/-- The loop: `nleft` of `n` bytes are left, and the next one is at `ptr`. -/
def fullLoop (move : Move) (n : ℕ) : ℕ → ℕ → ℕ → Object → World → Option (ℤ × Object × World)
  | 0, _, _, _, _ => none
  | fuel + 1, nleft, ptr, o, w =>
    if 0 < nleft then do
      let (nmoved, o, w) ← move o ptr nleft w
      if nmoved < 0 then
        if nleft = n then return (-1, o, w)
        else return (toSsize (n - nleft), o, w)
      else if nmoved = 0 then return (toSsize (n - nleft), o, w)
      else fullLoop move n fuel (toSize (nleft - nmoved)) (ptr + nmoved.toNat) o w
    else return (toSsize (n - nleft), o, w)

def readn (fuel : ℕ) (o : Object) (n : ℕ) : World → Option (ℤ × Object × World) :=
  fullLoop read n fuel n 0 o

def writen (fuel : ℕ) (o : Object) (n : ℕ) : World → Option (ℤ × Object × World) :=
  fullLoop write n fuel n 0 o

def treadn (fuel : ℕ) (o : Object) (nbytes : ℕ) : World → Option (ℤ × Object × World) :=
  fullLoop tread nbytes fuel nbytes 0 o

/-- What the calls of a loop over `n` bytes have moved, if it has come from `ptr` to `k`. -/
structure Moved (n ptr k : ℕ) (calls : List (ℕ × ℤ)) : Prop where
  le : ptr ≤ k
  end_le : k ≤ n
  asked : ∀ before c after, calls = before ++ c :: after →
    (c.1 : ℤ) = n - ptr - (before.map Prod.snd).sum ∧ -1 ≤ c.2 ∧ c.2 ≤ c.1
  short : k < n → ∃ c ∈ calls, c.2 = 0 ∨ c.2 = -1

/-- The first call has failed. -/
def FirstFailed (calls : List (ℕ × ℤ)) : Prop := calls.head?.map Prod.snd = some (-1)

instance (calls : List (ℕ × ℤ)) : Decidable (FirstFailed calls) :=
  inferInstanceAs (Decidable (_ = _))

/-- What one call keeps: of `ptr` bytes moved `P` holds, and then of `ptr` and those that the
call has moved. -/
def Keeps (move : Move) (P : ℕ → Object → World → Prop) : Prop :=
  ∀ ptr nleft o w, 0 < nleft → ptr + nleft ≤ o.bytes.length → P ptr o w →
    ∃ r o' w', move o ptr nleft w = some (r, o', w') ∧ -1 ≤ r ∧ r ≤ nleft ∧
      o'.bytes.length = o.bytes.length ∧ w'.calls = w.calls ++ [(nleft, r)] ∧
      P (ptr + r.toNat) o' w'

variable {n ptr k nleft : ℕ}

theorem firstFailed_cons {asked : ℕ} {r : ℤ} {calls : List (ℕ × ℤ)} :
    FirstFailed ((asked, r) :: calls) ↔ r = -1 := Option.some_inj

theorem toSize_eq {x : ℤ} (h : 0 ≤ x) (hle : x ≤ SSIZE_MAX) : toSize x = x.toNat := by
  unfold toSize SSIZE_MAX at *
  rw [Int.emod_eq_of_lt h (by omega)]

theorem toSsize_eq {x : ℤ} (h : 0 ≤ x) (hle : x ≤ SSIZE_MAX) : toSsize x = x := by
  unfold toSsize SSIZE_MAX at *
  rw [Int.bmod_eq_of_le (by omega) (by omega)]

theorem Moved.nil (h : ptr = n) : Moved n ptr ptr [] where
  le := Nat.le_refl ptr
  end_le := Nat.le_of_eq h
  asked := fun _ _ _ heq => absurd heq (by simp)
  short := fun hlt => absurd h (Nat.ne_of_lt hlt)

/-- The last call. -/
theorem Moved.stop {r : ℤ} (h : ptr + nleft = n) (hr : r = 0 ∨ r = -1) :
    Moved n ptr ptr [(nleft, r)] where
  le := Nat.le_refl ptr
  end_le := by omega
  asked := by
    intro before c after heq
    obtain ⟨rfl, hc⟩ : before = [] ∧ c = (nleft, r) := by
      cases before with
      | nil => exact ⟨rfl, (List.cons.inj heq).1.symm⟩
      | cons b before => exact absurd (List.cons.inj heq).2 (by simp)
    subst hc
    simp only [List.map_nil, List.sum_nil]
    omega
  short := fun _ => ⟨(nleft, r), List.mem_singleton_self _, hr⟩

/-- A call that has moved something, and what the others move then. -/
theorem Moved.cons {r : ℤ} {calls : List (ℕ × ℤ)} (hn : ptr + nleft = n) (hr : 0 < r)
    (hle : r ≤ nleft) (h : Moved n (ptr + r.toNat) k calls) :
    Moved n ptr k ((nleft, r) :: calls) where
  le := by
    have := h.le
    omega
  end_le := h.end_le
  asked := by
    intro before c after heq
    cases before with
    | nil =>
      obtain rfl := (List.cons.inj heq).1
      simp only [List.map_nil, List.sum_nil]
      omega
    | cons b before =>
      obtain ⟨rfl, hrest⟩ := List.cons.inj heq
      obtain ⟨hasked, hbound⟩ := h.asked before c after hrest
      refine ⟨?_, hbound⟩
      rw [hasked, List.map_cons, List.sum_cons]
      omega
  short := by
    intro hlt
    obtain ⟨c, hc, hend⟩ := h.short hlt
    exact ⟨c, List.mem_cons_of_mem _ hc, hend⟩

section Rounds

variable {move : Move} {o o' : Object} {w w' : World} {fuel : ℕ}

theorem fullLoop_zero (hn : n ≤ SSIZE_MAX) :
    fullLoop move n (fuel + 1) 0 ptr o w = some ((n : ℤ), o, w) := by
  rw [fullLoop, if_neg (by decide), Nat.cast_zero, sub_zero, toSsize_eq (by omega) (by omega)]
  rfl

/-- A call that fails. -/
theorem fullLoop_fails (hpos : 0 < nleft) (hleft : ptr + nleft = n) (hn : n ≤ SSIZE_MAX)
    (hcall : move o ptr nleft w = some (-1, o', w')) :
    fullLoop move n (fuel + 1) nleft ptr o w =
      some (if nleft = n then -1 else (ptr : ℤ), o', w') := by
  have hdone : toSsize ((n : ℤ) - nleft) = ptr := by
    rw [toSsize_eq (by omega) (by omega)]
    omega
  rw [fullLoop, if_pos hpos, hcall]
  simp only [Option.bind_eq_bind, Option.bind_some]
  rw [if_pos (by decide), hdone]
  split <;> rfl

/-- A call that moves nothing. -/
theorem fullLoop_ends (hpos : 0 < nleft) (hleft : ptr + nleft = n) (hn : n ≤ SSIZE_MAX)
    (hcall : move o ptr nleft w = some (0, o', w')) :
    fullLoop move n (fuel + 1) nleft ptr o w = some ((ptr : ℤ), o', w') := by
  have hdone : toSsize ((n : ℤ) - nleft) = ptr := by
    rw [toSsize_eq (by omega) (by omega)]
    omega
  rw [fullLoop, if_pos hpos, hcall]
  simp only [Option.bind_eq_bind, Option.bind_some, if_true]
  rw [if_neg (by decide), hdone]
  rfl

/-- A call that moves something. -/
theorem fullLoop_goes {m : ℕ} (hm : 0 < m) (hle : m ≤ nleft) (hn : nleft ≤ SSIZE_MAX)
    (hcall : move o ptr nleft w = some ((m : ℤ), o', w')) :
    fullLoop move n (fuel + 1) nleft ptr o w =
      fullLoop move n fuel (nleft - m) (ptr + m) o' w' := by
  have hnext : toSize ((nleft : ℤ) - m) = nleft - m := by
    rw [toSize_eq (by omega) (by omega)]
    omega
  rw [fullLoop, if_pos (by omega), hcall]
  simp only [Option.bind_eq_bind, Option.bind_some]
  rw [if_neg (by omega), if_neg (by omega), hnext, Int.toNat_natCast]

end Rounds

/-- The loop comes to its end, whatever the calls do. -/
theorem fullLoop_run {move : Move} {P : ℕ → Object → World → Prop} (hmove : Keeps move P)
    {fuel : ℕ} {o : Object} {w : World} (hfuel : nleft < fuel) (hleft : ptr + nleft = n)
    (hn : n ≤ o.bytes.length) (hP : P ptr o w) :
    ∃ v k calls o' w', fullLoop move n fuel nleft ptr o w = some (v, o', w') ∧
      w'.calls = w.calls ++ calls ∧ Moved n ptr k calls ∧
      (v = if ptr = 0 ∧ 0 < n ∧ FirstFailed calls then -1 else (k : ℤ)) ∧ P k o' w' := by
  induction fuel generalizing nleft ptr o w with
  | zero => exact absurd hfuel (Nat.not_lt_zero _)
  | succ fuel ih =>
    have hsize := Nat.le_trans hn o.length_le
    rcases Nat.eq_zero_or_pos nleft with rfl | hpos
    · obtain rfl : ptr = n := hleft
      refine ⟨ptr, ptr, [], o, w, fullLoop_zero hsize, (List.append_nil _).symm, .nil rfl, ?_, hP⟩
      rw [if_neg fun h => absurd h.2.2 nofun]
    · obtain ⟨r, o', w', hcall, hge, hle, hlength, hcalls, hP'⟩ :=
        hmove ptr nleft o w hpos (by omega) hP
      have hfirst : r ≠ -1 → ∀ calls, ¬ FirstFailed ((nleft, r) :: calls) :=
        fun hr calls h => hr (firstFailed_cons.mp h)
      rcases (by omega : r = -1 ∨ r = 0 ∨ 0 < r) with rfl | rfl | hr
      · refine ⟨_, ptr, [(nleft, -1)], o', w', fullLoop_fails hpos hleft hsize hcall, hcalls,
          .stop hleft (Or.inr rfl), ?_, hP'⟩
        by_cases hall : nleft = n
        · rw [if_pos hall, if_pos ⟨by omega, by omega, firstFailed_cons.mpr rfl⟩]
        · rw [if_neg hall, if_neg fun h => hall (by omega)]
      · refine ⟨_, ptr, [(nleft, 0)], o', w', fullLoop_ends hpos hleft hsize hcall, hcalls,
          .stop hleft (Or.inl rfl), ?_, hP'⟩
        rw [if_neg fun h => hfirst (by decide) [] h.2.2]
      · obtain ⟨m, rfl⟩ := Int.eq_ofNat_of_zero_le hr.le
        obtain ⟨v, k, calls, o'', w'', hloop, hcalls', hmoved, hv, hP''⟩ :=
          @ih (ptr + m) (nleft - m) o' w' (by omega) (by omega) (by omega) hP'
        refine ⟨v, k, (nleft, (m : ℤ)) :: calls, o'', w'',
          (fullLoop_goes (by omega) (by omega) (by omega) hcall).trans hloop, ?_,
          .cons hleft hr hle hmoved, ?_, hP''⟩
        · rw [hcalls', hcalls, List.append_assoc, List.singleton_append]
        · rw [hv, if_neg (by omega), if_neg fun h => hfirst (by omega) calls h.2.2]

/-- The bytes up to `k` have come in, and nothing else has changed. -/
def Received (o₀ : Object) (w₀ : World) (k : ℕ) (o : Object) (w : World) : Prop :=
  k ≤ w₀.stream.length ∧ o.bytes = w₀.stream.take k ++ o₀.bytes.drop k ∧
    w.stream = w₀.stream.drop k ∧ w.sent = w₀.sent

/-- The bytes up to `k` have been written. -/
def Sent (o₀ : Object) (w₀ : World) (k : ℕ) (o : Object) (w : World) : Prop :=
  o = o₀ ∧ w.sent = w₀.sent ++ o₀.bytes.take k ∧ w.stream = w₀.stream

theorem store_eq {o : Object} {data : List Byte} (h : ptr + data.length ≤ o.bytes.length) :
    ∃ o', o.store ptr data = some o' ∧
      o'.bytes = o.bytes.take ptr ++ data ++ o.bytes.drop (ptr + data.length) ∧
      o'.bytes.length = o.bytes.length := by
  refine ⟨_, dif_pos h, rfl, ?_⟩
  simp only [List.length_append, List.length_take, List.length_drop]
  omega

/-- What comes in goes behind what has come in. -/
theorem Received.more {o₀ o o' : Object} {w₀ w w' : World} {m : ℕ} (h : Received o₀ w₀ ptr o w)
    (hbytes : o'.bytes = o.bytes.take ptr ++ w.stream.take m ++
      o.bytes.drop (ptr + (w.stream.take m).length))
    (hstream : w'.stream = w.stream.drop m) (hsent : w'.sent = w.sent) :
    Received o₀ w₀ (ptr + (w.stream.take m).length) o' w' := by
  obtain ⟨hle, ho, hs, hsent₀⟩ := h
  have hlen : (w₀.stream.take ptr).length = ptr := by
    rw [List.length_take, Nat.min_eq_left hle]
  rw [hs] at hbytes hstream ⊢
  have hall : (w₀.stream.drop ptr).take ((w₀.stream.drop ptr).take m).length =
      (w₀.stream.drop ptr).take m := by
    rw [List.length_take, ← List.take_eq_take_min]
  have hrest : (w₀.stream.drop ptr).drop ((w₀.stream.drop ptr).take m).length =
      (w₀.stream.drop ptr).drop m := by
    rw [List.length_take, ← List.drop_eq_drop_min]
  refine ⟨?_, ?_, ?_, hsent.trans hsent₀⟩
  · rw [List.length_take, List.length_drop]
    omega
  · rw [hbytes, ho, List.take_left' hlen, List.take_add, hall, ← List.drop_drop,
      List.drop_left' hlen, List.drop_drop]
  · rw [hstream, ← hrest, List.drop_drop]

theorem read_keeps (o₀ : Object) (w₀ : World) : Keeps read (Received o₀ w₀) := by
  intro ptr nleft o w hpos hfits hP
  unfold read
  split
  · rename_i k hk
    have hlen : (w.stream.take (min k nleft)).length ≤ nleft := by
      rw [List.length_take]
      omega
    obtain ⟨o', hstore, hbytes, hlength⟩ :=
      @store_eq ptr o (w.stream.take (min k nleft)) (by omega)
    rw [if_pos hfits]
    simp only [hstore, Option.bind_eq_bind, Option.bind_some]
    refine ⟨_, o', _, rfl, by omega, by omega, hlength, rfl, ?_⟩
    rw [Int.toNat_natCast]
    exact hP.more hbytes rfl rfl
  · exact ⟨_, _, _, rfl, by omega, by omega, rfl, rfl, hP⟩

theorem tread_keeps (o₀ : Object) (w₀ : World) : Keeps tread (Received o₀ w₀) := by
  intro ptr nleft o w hpos hfits hP
  unfold tread
  by_cases hselect : select w ≤ 0
  · rw [if_pos hselect]
    exact ⟨_, _, _, rfl, by omega, by omega, rfl, rfl, hP⟩
  · rw [if_neg hselect]
    exact read_keeps o₀ w₀ ptr nleft o w hpos hfits hP

theorem write_keeps (o₀ : Object) (w₀ : World) : Keeps write (Sent o₀ w₀) := by
  intro ptr nleft o w hpos hfits hP
  obtain ⟨rfl, hsent, hstream⟩ := hP
  unfold write
  split
  · rename_i k hk
    rw [if_pos hfits]
    refine ⟨_, _, _, rfl, by omega, by omega, rfl, rfl, rfl, ?_, hstream⟩
    change w.sent ++ (o.bytes.drop ptr).take (min k nleft) = _
    rw [hsent, List.append_assoc, Int.toNat_natCast, List.take_add]
  · refine ⟨_, _, _, rfl, by omega, by omega, rfl, rfl, rfl, hsent, hstream⟩

/-- The result of a loop that has moved the first `k` bytes with these calls. -/
structure Result (n : ℕ) (v : ℤ) (k : ℕ) (calls : List (ℕ × ℤ)) : Prop where
  moved : Moved n 0 k calls
  failed : v = -1 ↔ 0 < n ∧ FirstFailed calls
  value : v ≠ -1 → v = k

theorem fullLoop_result {move : Move} {P : ℕ → Object → World → Prop} (hmove : Keeps move P)
    {fuel : ℕ} {o : Object} {w : World} (hfuel : n < fuel) (hn : n ≤ o.bytes.length)
    (hP : P 0 o w) :
    ∃ v k calls o' w', fullLoop move n fuel n 0 o w = some (v, o', w') ∧
      w'.calls = w.calls ++ calls ∧ Result n v k calls ∧ P k o' w' := by
  obtain ⟨v, k, calls, o', w', hloop, hcalls, hmoved, hv, hP'⟩ :=
    fullLoop_run hmove hfuel (Nat.zero_add n) hn hP
  refine ⟨v, k, calls, o', w', hloop, hcalls, ⟨hmoved, ?_, fun hne => ?_⟩, hP'⟩
  · rw [hv]
    by_cases hfail : 0 < n ∧ FirstFailed calls
    · rw [if_pos ⟨rfl, hfail⟩]
      exact iff_of_true rfl hfail
    · rw [if_neg fun h => hfail h.2]
      exact iff_of_false (by omega) hfail
  · by_cases hfail : (0 : ℕ) = 0 ∧ 0 < n ∧ FirstFailed calls
    · exact absurd (hv.trans (if_pos hfail)) hne
    · exact hv.trans (if_neg hfail)

/-- A function that reads, whatever its calls do. -/
def ReadsFully (f : ℕ → Object → ℕ → World → Option (ℤ × Object × World)) : Prop :=
  ∀ fuel o n w, n < fuel → n ≤ o.bytes.length → ∃ v k calls o' w',
    f fuel o n w = some (v, o', w') ∧ w'.calls = w.calls ++ calls ∧ Result n v k calls ∧
    Received o w k o' w'

/-- A function that writes, whatever its calls do. -/
def WritesFully (f : ℕ → Object → ℕ → World → Option (ℤ × Object × World)) : Prop :=
  ∀ fuel o n w, n < fuel → n ≤ o.bytes.length → ∃ v k calls o' w',
    f fuel o n w = some (v, o', w') ∧ w'.calls = w.calls ++ calls ∧ Result n v k calls ∧
    Sent o w k o' w'

theorem received_zero (o : Object) (w : World) : Received o w 0 o w :=
  ⟨Nat.zero_le _, rfl, rfl, rfl⟩

theorem sent_zero (o : Object) (w : World) : Sent o w 0 o w :=
  ⟨rfl, (List.append_nil _).symm, rfl⟩

theorem readn_reads : ReadsFully readn := fun _ o _ w hfuel hn =>
  fullLoop_result (read_keeps o w) hfuel hn (received_zero o w)

theorem treadn_reads : ReadsFully treadn := fun _ o _ w hfuel hn =>
  fullLoop_result (tread_keeps o w) hfuel hn (received_zero o w)

theorem writen_writes : WritesFully writen := fun _ o _ w hfuel hn =>
  fullLoop_result (write_keeps o w) hfuel hn (sent_zero o w)

/-- What writen has put into a stream is what readn takes out of it, however the two are cut
into pieces. -/
def Agree : Prop :=
  ∀ fuel n (o o' : Object) (w w' : World) v v' o₁ w₁ o₂ w₂, n < fuel → n ≤ o.bytes.length →
    n ≤ o'.bytes.length → w.sent = [] → writen fuel o n w = some (v, o₁, w₁) →
    w'.stream = w₁.sent → readn fuel o' n w' = some (v', o₂, w₂) →
    o₂.bytes.take v'.toNat = o.bytes.take v'.toNat

theorem agree : Agree := by
  intro fuel n o o' w w' v v' o₁ w₁ o₂ w₂ hfuel hn hn' hsent hwrite hstream hread
  obtain ⟨u, k, calls, p, x, hw, -, hresult, hP⟩ := writen_writes fuel o n w hfuel hn
  obtain ⟨u', k', calls', p', x', hr, -, hresult', hP'⟩ := readn_reads fuel o' n w' hfuel hn'
  obtain ⟨rfl, hpair⟩ := Prod.mk.inj (Option.some.inj (hw.symm.trans hwrite))
  obtain ⟨rfl, rfl⟩ := Prod.mk.inj hpair
  obtain ⟨rfl, hpair⟩ := Prod.mk.inj (Option.some.inj (hr.symm.trans hread))
  obtain ⟨rfl, rfl⟩ := Prod.mk.inj hpair
  obtain ⟨-, hs, -⟩ := hP
  obtain ⟨hle, hbytes, -, -⟩ := hP'
  by_cases hfail : u' = -1
  · rw [hfail]
    rfl
  · rw [hresult'.value hfail, Int.toNat_natCast]
    rw [hstream, hs, hsent, List.nil_append] at hle hbytes
    have hlen : ((o.bytes.take k).take k').length = k' := by
      rw [List.length_take, Nat.min_eq_left hle]
    rw [List.length_take] at hle
    rw [hbytes, List.take_left' hlen, List.take_take, Nat.min_eq_left (by omega)]

theorem full_transfers : ReadsFully readn ∧ ReadsFully treadn ∧ WritesFully writen ∧ Agree :=
  ⟨readn_reads, treadn_reads, writen_writes, agree⟩

end Apue.Transfers
