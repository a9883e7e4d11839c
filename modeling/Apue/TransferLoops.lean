import Apue.Programs
import Apue.Transfers

/-!
The loops writen and treadn as programs, over any call that writes bytes and any call that
reads some. A program keeps the bytes in lists where the source moves a pointer through an
object in memory. Whoever answers the calls as a script does, the program is the source's loop:
the result is the same, the same bytes are moved, and what was read stands in the object.
-/
namespace Apue.Transfers

open Decimal Programs

variable {S : Signature} {E : Type}

/-- The loop of writen; `n` bytes were to be written and `left` of them remain. -/
def writenLoop (put : List Byte → Prog S (Option ℕ)) (n : ℕ) : ℕ → List Byte → Prog S ℤ
  | _, [] => .ret n
  | 0, _ :: _ => .diverge
  | fuel + 1, b :: left => do
    match ← put (b :: left) with
    | none => if (b :: left).length = n then return -1 else return n - (b :: left).length
    | some 0 => return n - (b :: left).length
    | some (nwritten + 1) => writenLoop put n fuel ((b :: left).drop (nwritten + 1))

@[simp] theorem writenLoop_nil (put : List Byte → Prog S (Option ℕ)) (n fuel : ℕ) :
    writenLoop put n fuel [] = .ret n := by
  cases fuel <;> rfl

def writenWith (put : List Byte → Prog S (Option ℕ)) (bytes : List Byte) : Prog S ℤ :=
  writenLoop put bytes.length bytes.length bytes

/-- The loop of treadn. It asks for the `nleft` bytes that are still missing, and
reports an error only if nothing was read before it. -/
def treadnLoop (get : ℕ → Prog S (Except E (List Byte))) :
    ℕ → ℕ → List Byte → Prog S (Except E (List Byte))
  | _, 0, acc => return .ok acc
  | 0, _ + 1, _ => .diverge
  | fuel + 1, nleft + 1, acc => do
    match ← get (nleft + 1) with
    | .error e => if acc = [] then return .error e else return .ok acc
    | .ok [] => return .ok acc
    | .ok (b :: buf) => treadnLoop get fuel (nleft + 1 - (b :: buf).length) (acc ++ b :: buf)

/-- Every read of the loop returns at least one byte, or it is the last. -/
def treadnWith (get : ℕ → Prog S (Except E (List Byte))) (nbytes : ℕ) :
    Prog S (Except E (List Byte)) := treadnLoop get nbytes nbytes []

/-- The loop makes no other calls than the reads. -/
theorem only_treadnLoop {get : ℕ → Prog S (Except E (List Byte))} {P : S.Call → Prop}
    (h : ∀ nbytes, (get nbytes).Only P) (fuel nleft : ℕ) (acc : List Byte) :
    (treadnLoop get fuel nleft acc).Only P := by
  induction fuel generalizing nleft acc with
  | zero => cases nleft <;> trivial
  | succ fuel ih =>
    cases nleft with
    | zero => trivial
    | succ nleft =>
      refine Prog.Only.bind (h _) fun r => ?_
      rcases r with e | (_ | ⟨b, buf⟩)
      · exact Prog.Only.ite trivial trivial
      · trivial
      · exact ih _ _

/-- What a call that writes answers, by the script. -/
def wrote (bytes : List Byte) (w : World) : Option ℕ × World :=
  match w.script 0 with
  | .upTo k => (some (min k bytes.length), { w.done bytes.length (min k bytes.length : ℕ) with
      sent := w.sent ++ bytes.take (min k bytes.length) })
  | _ => (none, w.done bytes.length (-1))

/-- What a call that reads answers, by the script. -/
def Got (nbytes : ℕ) (w : World) (r : Except E (List Byte)) (w' : World) : Prop :=
  (∃ k, w.script 0 = .upTo k ∧ r = .ok (w.stream.take (min k nbytes)) ∧
    w' = { w.done nbytes (w.stream.take (min k nbytes)).length with
      stream := w.stream.drop (min k nbytes) }) ∨
    (∀ k, w.script 0 ≠ .upTo k) ∧ (∃ e, r = .error e) ∧ w' = w.done nbytes (-1)

/-- The result of a call in the source. -/
def ssizeOf : Option ℕ → ℤ
  | none => -1
  | some m => m

def codeOf : Except E (List Byte) → ℤ
  | .error _ => -1
  | .ok bytes => bytes.length

section Steps

variable {o : Object} {w w' : World} {ptr nleft n : ℕ}

theorem wrote_le {bytes : List Byte} {m : ℕ} (h : (wrote bytes w).1 = some m) :
    m ≤ bytes.length := by
  unfold wrote at h
  split at h
  · obtain rfl := Option.some.inj h
    exact Nat.min_le_right _ _
  · cases h

/-- The bytes that the loop is about to write. -/
def Object.part (o : Object) (ptr nleft : ℕ) : List Byte := (o.bytes.drop ptr).take nleft

theorem Object.length_part (hfits : ptr + nleft ≤ o.bytes.length) :
    (o.part ptr nleft).length = nleft := by
  rw [part, List.length_take, List.length_drop]
  omega

theorem Object.drop_part (m : ℕ) : (o.part ptr nleft).drop m = o.part (ptr + m) (nleft - m) := by
  rw [part, part, List.drop_take, List.drop_drop]

theorem write_eq (hfits : ptr + nleft ≤ o.bytes.length) :
    write o ptr nleft w =
      some (ssizeOf (wrote (o.part ptr nleft) w).1, o, (wrote (o.part ptr nleft) w).2) := by
  have hlen := Object.length_part hfits
  unfold write wrote
  rw [hlen]
  cases w.script 0 with
  | upTo k =>
    simp only [if_pos hfits, Object.part, List.take_take, Nat.min_assoc, Nat.min_self]
    rfl
  | expired | unselected | fail => rfl

/-- A read that brings something, or the end of the data. -/
theorem tread_ok {k : ℕ} (hk : w.script 0 = .upTo k) (hfits : ptr + nleft ≤ o.bytes.length) :
    ∃ o', tread o ptr nleft w = some (((w.stream.take (min k nleft)).length : ℤ), o',
        { w.done nleft (w.stream.take (min k nleft)).length with
          stream := w.stream.drop (min k nleft) }) ∧
      o'.bytes.length = o.bytes.length ∧
      o'.bytes.take (ptr + (w.stream.take (min k nleft)).length) =
        o.bytes.take ptr ++ w.stream.take (min k nleft) := by
  have hlen : (w.stream.take (min k nleft)).length ≤ nleft := by
    rw [List.length_take]
    omega
  obtain ⟨o', hstore, hbytes, hlength⟩ :=
    @store_eq ptr o (w.stream.take (min k nleft)) (by omega)
  refine ⟨o', ?_, hlength, ?_⟩
  · have hselect : select w = 1 := by rw [select, hk]
    rw [tread, hselect, if_neg (by decide), read, hk]
    simp only [if_pos hfits, hstore, Option.bind_eq_bind, Option.bind_some]
    rfl
  · rw [hbytes]
    refine List.take_left' ?_
    rw [List.length_append, List.length_take, Nat.min_eq_left (by omega)]

theorem tread_fail (h : ∀ k, w.script 0 ≠ .upTo k) :
    tread o ptr nleft w = some (-1, o, w.done nleft (-1)) := by
  unfold tread read
  cases hw : w.script 0 with
  | upTo k => exact absurd hw (h k)
  | expired | unselected | fail =>
    simp only
    split <;> rfl

end Steps

section Runs

variable {τ : Type} {handle : (c : S.Call) → τ → S.Ret c × τ} {view : τ → World}
variable {o : Object} {ptr nleft n fuel : ℕ}

/-- Whoever writes by a script performs the loop of the source. -/
theorem run_writenLoop {put : List Byte → Prog S (Option ℕ)}
    (hput : ∀ bytes s, ∃ s', (put bytes).run handle s = (.ok (wrote bytes (view s)).1, s') ∧
      view s' = (wrote bytes (view s)).2)
    (hfuel : nleft ≤ fuel) (hleft : ptr + nleft = n) (hn : n ≤ o.bytes.length) (s : τ) :
    ∃ v s', (writenLoop put n fuel (o.part ptr nleft)).run handle s = (.ok v, s') ∧
      fullLoop write n (fuel + 1) nleft ptr o (view s) = some (v, o, view s') := by
  have hsize := hn.trans o.length_le
  induction fuel generalizing ptr nleft s with
  | zero =>
    obtain rfl := Nat.le_zero.mp hfuel
    exact ⟨n, s, rfl, fullLoop_zero hsize⟩
  | succ fuel ih =>
    have hlen := @Object.length_part o ptr nleft (by omega)
    cases hpart : o.part ptr nleft with
    | nil =>
      obtain rfl : 0 = nleft := (congrArg List.length hpart).symm.trans hlen
      exact ⟨n, s, rfl, fullLoop_zero hsize⟩
    | cons b left =>
      rw [hpart] at hlen
      have hpos : 0 < nleft := hlen ▸ Nat.succ_pos _
      have hcall := @write_eq o (view s) ptr nleft (by omega)
      obtain ⟨s₁, hrun, hview⟩ := hput (b :: left) s
      rw [writenLoop, Prog.run_bind, hrun]
      rw [hpart, ← hview] at hcall
      cases hr : (wrote (b :: left) (view s)).1 with
      | none =>
        rw [hr] at hcall
        refine ⟨_, s₁, ?_, fullLoop_fails hpos hleft hsize hcall⟩
        simp only [hlen]
        split
        · rfl
        · rw [← hleft, Nat.cast_add, add_sub_cancel_right]
          rfl
      | some m =>
        have hm : m ≤ nleft := hlen ▸ wrote_le hr
        rw [hr] at hcall
        cases m with
        | zero =>
          refine ⟨_, s₁, ?_, fullLoop_ends hpos hleft hsize hcall⟩
          simp only [hlen]
          rw [← hleft, Nat.cast_add, add_sub_cancel_right]
          rfl
        | succ m =>
          obtain ⟨v, s', hloop, hfull⟩ :=
            @ih (ptr + (m + 1)) (nleft - (m + 1)) (by omega) (by omega) s₁
          rw [← Object.drop_part, hpart] at hloop
          exact ⟨v, s', hloop, (fullLoop_goes (Nat.succ_pos m) hm (by omega) hcall).trans hfull⟩

/-- Whoever reads by a script performs the loop of the source. -/
theorem run_treadnLoop {get : ℕ → Prog S (Except E (List Byte))}
    (hget : ∀ nbytes s, ∃ r s', (get nbytes).run handle s = (.ok r, s') ∧
      Got nbytes (view s) r (view s'))
    (hfuel : nleft ≤ fuel) (hleft : ptr + nleft = n) (hn : n ≤ o.bytes.length) (s : τ) :
    ∃ r s' o', (treadnLoop get fuel nleft (o.bytes.take ptr)).run handle s = (.ok r, s') ∧
      fullLoop tread n (fuel + 1) nleft ptr o (view s) = some (codeOf r, o', view s') ∧
      ∀ bytes, r = .ok bytes → o'.bytes.take bytes.length = bytes := by
  have hsize := hn.trans o.length_le
  have hacc : (o.bytes.take ptr).length = ptr := by
    rw [List.length_take]
    omega
  have hwhole : codeOf (Except.ok (o.bytes.take ptr) : Except E (List Byte)) = ptr :=
    congrArg Nat.cast hacc
  have htake : ∀ bytes, (Except.ok (o.bytes.take ptr) : Except E (List Byte)) = .ok bytes →
      o.bytes.take bytes.length = bytes := by
    intro bytes heq
    rw [← Except.ok.inj heq, hacc]
  induction fuel generalizing ptr nleft o s with
  | zero =>
    obtain rfl := Nat.le_zero.mp hfuel
    obtain rfl : ptr = n := hleft
    exact ⟨_, s, o, rfl, hwhole ▸ fullLoop_zero hsize, htake⟩
  | succ fuel ih =>
    cases nleft with
    | zero =>
      obtain rfl : ptr = n := hleft
      exact ⟨_, s, o, rfl, hwhole ▸ fullLoop_zero hsize, htake⟩
    | succ nleft =>
      obtain ⟨r, s₁, hrun, hgot⟩ := hget (nleft + 1) s
      rw [treadnLoop, Prog.run_bind, hrun]
      rcases hgot with ⟨k, hk, rfl, hview⟩ | ⟨hno, ⟨e, rfl⟩, hview⟩
      · obtain ⟨o₁, hcall, hlen₁, hbytes⟩ :=
          @tread_ok o (view s) ptr (nleft + 1) k hk (by omega)
        have hle : ((view s).stream.take (min k (nleft + 1))).length ≤ nleft + 1 := by
          rw [List.length_take]
          omega
        rw [← hview] at hcall
        generalize (view s).stream.take (min k (nleft + 1)) = data at hbytes hle hcall
        cases data with
        | nil =>
          refine ⟨_, s₁, o₁, rfl, ?_, fun bytes heq => ?_⟩
          · rw [hwhole]
            exact fullLoop_ends (Nat.succ_pos nleft) hleft hsize hcall
          · rw [← Except.ok.inj heq, hacc]
            rwa [List.append_nil] at hbytes
        | cons b buf =>
          rw [← hlen₁] at hn
          have hfits : (o₁.bytes.take (ptr + (b :: buf).length)).length =
              ptr + (b :: buf).length := by
            rw [List.length_take]
            omega
          obtain ⟨r, s', o', hloop, hfull, htake'⟩ :=
            @ih o₁ (ptr + (b :: buf).length) (nleft + 1 - (b :: buf).length)
              (by rw [List.length_cons]; omega) (by omega) hn s₁ hfits (congrArg Nat.cast hfits)
              fun bytes heq => by rw [← Except.ok.inj heq, hfits]
          rw [hbytes] at hloop
          exact ⟨r, s', o', hloop,
            (fullLoop_goes (Nat.succ_pos buf.length) hle (by omega) hcall).trans hfull, htake'⟩
      · have hcall := @tread_fail o (view s) ptr (nleft + 1) hno
        rw [← hview] at hcall
        have hfull := @fullLoop_fails n ptr (nleft + 1) tread o o _ _ (fuel + 1)
          (Nat.succ_pos nleft) hleft hsize hcall
        by_cases hall : nleft + 1 = n
        · have hnil : o.bytes.take ptr = [] :=
            List.eq_nil_of_length_eq_zero (hacc.trans (by omega))
          rw [if_pos hall] at hfull
          rw [hnil]
          refine ⟨_, s₁, o, rfl, hfull, fun bytes heq => ?_⟩
          cases heq
        · have hcons : o.bytes.take ptr ≠ [] := fun h => by
            rw [h, List.length_nil] at hacc
            omega
          rw [if_neg hall, ← hwhole] at hfull
          simp only [if_neg hcons]
          exact ⟨_, s₁, o, rfl, hfull, htake⟩

theorem run_writenWith {put : List Byte → Prog S (Option ℕ)}
    (hput : ∀ bytes s, ∃ s', (put bytes).run handle s = (.ok (wrote bytes (view s)).1, s') ∧
      view s' = (wrote bytes (view s)).2)
    (hn : n ≤ o.bytes.length) (s : τ) :
    ∃ v s', (writenWith put (o.bytes.take n)).run handle s = (.ok v, s') ∧
      writen (n + 1) o n (view s) = some (v, o, view s') := by
  rw [writenWith, List.length_take, Nat.min_eq_left hn]
  exact run_writenLoop hput (Nat.le_refl n) (Nat.zero_add n) hn s

theorem run_treadnWith {get : ℕ → Prog S (Except E (List Byte))}
    (hget : ∀ nbytes s, ∃ r s', (get nbytes).run handle s = (.ok r, s') ∧
      Got nbytes (view s) r (view s'))
    (hn : n ≤ o.bytes.length) (s : τ) :
    ∃ r s' o', (treadnWith get n).run handle s = (.ok r, s') ∧
      treadn (n + 1) o n (view s) = some (codeOf r, o', view s') ∧
      ∀ bytes, r = .ok bytes → o'.bytes.take bytes.length = bytes :=
  run_treadnLoop hget (Nat.le_refl n) (Nat.zero_add n) hn s

end Runs

end Apue.Transfers
