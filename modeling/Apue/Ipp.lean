import Apue.Decimal

/-!
Messages of the Internet Printing Protocol. A message has the version, the operation and
the request ID, all with the most significant byte first, then groups of attributes and
the tag that ends them, and behind it the data. An attribute is a tag and two texts, each
with its length in front of it. A tag below 16 begins a group or ends the attributes.
-/
namespace Apue.Ipp

open Decimal

/-- The tag that ends the attributes. -/
def END : Byte := 3

/-- The beginning of a group, or an attribute of the group. -/
inductive Item
  | group (tag : Byte)
  | attr (tag : Byte) (name value : List Byte)
  deriving DecidableEq

structure Message where
  major : Byte
  minor : Byte
  operation : ℕ
  requestId : ℤ
  items : List Item
  data : List Byte
  deriving DecidableEq

/-- A number in `k` bytes. -/
def number : ℕ → ℕ → List Byte
  | 0, _ => []
  | k + 1, n => UInt8.ofNat (n / 256 ^ k) :: number k n

def value (bytes : List Byte) : ℕ := bytes.foldl (fun a b => 256 * a + b.toNat) 0

def counted (text : List Byte) : List Byte := number 2 text.length ++ text

def Item.encode : Item → List Byte
  | group tag => [tag]
  | attr tag name value => tag :: (counted name ++ counted value)

/-- What the encoding of an item has room for. -/
def Item.Ok : Item → Prop
  | group tag => tag.toNat < 16 ∧ tag ≠ END
  | attr tag name value => 16 ≤ tag.toNat ∧ name.length < 2 ^ 16 ∧ value.length < 2 ^ 16

def encodeItems (items : List Item) : List Byte := (items.map Item.encode).flatten

/-- The message up to the data. -/
def Message.header (m : Message) : List Byte :=
  m.major :: m.minor :: (number 2 m.operation ++ (number 4 (m.requestId % 2 ^ 32).toNat ++
    (encodeItems m.items ++ [END])))

def Message.encode (m : Message) : List Byte := m.header ++ m.data

structure Message.Ok (m : Message) : Prop where
  operation_lt : m.operation < 2 ^ 16
  requestId_ge : -2 ^ 31 ≤ m.requestId
  requestId_lt : m.requestId < 2 ^ 31
  items_ok : ∀ x ∈ m.items, x.Ok

/-- A text and what follows it. -/
def takeCounted : List Byte → Option (List Byte × List Byte)
  | hi :: lo :: rest =>
    if value [hi, lo] ≤ rest.length then
      some (rest.take (value [hi, lo]), rest.drop (value [hi, lo]))
    else none
  | _ => none

/-- The items up to the tag that ends them, and what follows it. -/
def decodeItems : ℕ → List Byte → Option (List Item × List Byte)
  | 0, _ => none
  | _ + 1, [] => none
  | fuel + 1, tag :: rest =>
    if tag = END then some ([], rest)
    else if tag.toNat < 16 then do
      let (items, rest) ← decodeItems fuel rest
      some (.group tag :: items, rest)
    else do
      let (name, rest) ← takeCounted rest
      let (value, rest) ← takeCounted rest
      let (items, rest) ← decodeItems fuel rest
      some (.attr tag name value :: items, rest)

/-- Each item takes at least one byte. -/
def decode : List Byte → Option Message
  | major :: minor :: o₁ :: o₂ :: r₁ :: r₂ :: r₃ :: r₄ :: rest => do
    let (items, data) ← decodeItems rest.length rest
    some ⟨major, minor, value [o₁, o₂], Int.bmod (value [r₁, r₂, r₃, r₄]) (2 ^ 32), items, data⟩
  | _ => none

@[simp] theorem length_number (k n : ℕ) : (number k n).length = k := by
  induction k with
  | zero => rfl
  | succ k ih => rw [number, List.length_cons, ih]

theorem value_cons (b : Byte) (bytes : List Byte) :
    value (b :: bytes) = b.toNat * 256 ^ bytes.length + value bytes := by
  have hfrom : ∀ (bytes : List Byte) (a : ℕ), bytes.foldl (fun a b => 256 * a + b.toNat) a =
      a * 256 ^ bytes.length + value bytes := by
    intro bytes
    induction bytes with
    | nil => simp [value]
    | cons c bytes ih =>
      intro a
      rw [value, List.foldl_cons, List.foldl_cons, ih, ih, List.length_cons, Nat.pow_succ]
      ring
  rw [value, List.foldl_cons, Nat.mul_zero, Nat.zero_add, hfrom]

/-- A number that fits is read back. -/
theorem value_number (k n : ℕ) : value (number k n) = n % 256 ^ k := by
  induction k with
  | zero => rw [Nat.pow_zero, Nat.mod_one, number, value, List.foldl_nil]
  | succ k ih =>
    have hsplit : n % 256 ^ (k + 1) = n % 256 ^ k + 256 ^ k * (n / 256 ^ k % 256) :=
      Nat.mod_pow_succ
    rw [number, value_cons, length_number, ih, UInt8.toNat_ofNat', hsplit, Nat.mul_comm,
      Nat.add_comm]

@[simp] theorem length_counted (text : List Byte) : (counted text).length = 2 + text.length := by
  rw [counted, List.length_append, length_number]

theorem takeCounted_counted {text : List Byte} (h : text.length < 2 ^ 16) (rest : List Byte) :
    takeCounted (counted text ++ rest) = some (text, rest) := by
  have hvalue : value [UInt8.ofNat (text.length / 256 ^ 1), UInt8.ofNat (text.length / 256 ^ 0)] =
      text.length := (value_number 2 text.length).trans (Nat.mod_eq_of_lt h)
  simp only [counted, number, List.cons_append, List.nil_append, takeCounted, hvalue,
    List.length_append, Nat.le_add_right, if_true, List.take_left, List.drop_left]

theorem encodeItems_cons (x : Item) (items : List Item) :
    encodeItems (x :: items) = x.encode ++ encodeItems items := by
  rw [encodeItems, List.map_cons, List.flatten_cons, encodeItems]

theorem decodeItems_encodeItems {items : List Item} (h : ∀ x ∈ items, x.Ok) (data : List Byte)
    {fuel : ℕ} (hfuel : items.length < fuel) :
    decodeItems fuel (encodeItems items ++ END :: data) = some (items, data) := by
  induction items generalizing fuel with
  | nil =>
    obtain ⟨fuel, rfl⟩ := Nat.exists_eq_add_one_of_ne_zero (Nat.ne_of_gt hfuel)
    exact if_pos rfl
  | cons x items ih =>
    obtain ⟨fuel, rfl⟩ := Nat.exists_eq_add_one_of_ne_zero (Nat.ne_of_gt (Nat.zero_lt_of_lt hfuel))
    rw [List.length_cons] at hfuel
    have hrest := ih (fun y hy => h y (List.mem_cons_of_mem x hy)) (Nat.lt_of_succ_lt_succ hfuel)
    have hx := h x List.mem_cons_self
    rw [encodeItems_cons, List.append_assoc]
    cases x with
    | group tag =>
      simp only [Item.encode, List.cons_append, List.nil_append, decodeItems, if_neg hx.2,
        if_pos hx.1, hrest, Option.bind_eq_bind, Option.bind_some]
    | attr tag name value =>
      have htag : ¬ tag.toNat < 16 := Nat.not_lt.mpr hx.1
      have hend : tag ≠ END := by
        rintro rfl
        exact htag (by decide)
      simp only [Item.encode, List.cons_append, List.append_assoc, decodeItems, if_neg hend,
        if_neg htag, takeCounted_counted hx.2.1, takeCounted_counted hx.2.2, hrest,
        Option.bind_eq_bind, Option.bind_some]

theorem length_items_le (items : List Item) : items.length ≤ (encodeItems items).length := by
  induction items with
  | nil => exact Nat.le_refl 0
  | cons x items ih =>
    rw [encodeItems_cons, List.length_append, List.length_cons]
    have hpos : 0 < x.encode.length := by
      cases x <;> exact Nat.succ_pos _
    omega

theorem bmod_requestId {m : Message} (h : m.Ok) :
    Int.bmod ((m.requestId % 2 ^ 32).toNat : ℤ) (2 ^ 32) = m.requestId := by
  have hge := h.requestId_ge
  have hlt := h.requestId_lt
  rw [Int.toNat_of_nonneg (Int.emod_nonneg _ (by decide))]
  have hmod : Int.bmod (m.requestId % 2 ^ 32) (2 ^ 32) = Int.bmod m.requestId (2 ^ 32) :=
    Int.emod_bmod ..
  rw [hmod]
  refine Int.bmod_eq_of_le ?_ ?_
  · norm_num
    omega
  · norm_num
    omega

/-- What was encoded is decoded. -/
theorem decode_encode {m : Message} (h : m.Ok) : decode m.encode = some m := by
  have hoperation : value (number 2 m.operation) = m.operation := by
    rw [value_number]
    exact Nat.mod_eq_of_lt h.operation_lt
  have hrequest : value (number 4 (m.requestId % 2 ^ 32).toNat) =
      (m.requestId % 2 ^ 32).toNat := by
    rw [value_number]
    refine Nat.mod_eq_of_lt ?_
    have hmod := Int.emod_lt_of_pos m.requestId (show (0 : ℤ) < 2 ^ 32 by decide)
    omega
  have hitems : decodeItems (encodeItems m.items ++ END :: m.data).length
      (encodeItems m.items ++ END :: m.data) = some (m.items, m.data) := by
    refine decodeItems_encodeItems h.items_ok m.data ?_
    have hle := length_items_le m.items
    rw [List.length_append, List.length_cons]
    omega
  have hbytes : m.encode = m.major :: m.minor :: (number 2 m.operation ++
      (number 4 (m.requestId % 2 ^ 32).toNat ++ (encodeItems m.items ++ END :: m.data))) := by
    simp only [Message.encode, Message.header, List.cons_append, List.append_assoc,
      List.nil_append]
  have hid := bmod_requestId h
  rw [← hrequest] at hid
  rw [hbytes]
  simp only [number, List.cons_append, List.nil_append] at hoperation hid ⊢
  simp only [decode, hitems, hoperation, hid, Option.bind_eq_bind, Option.bind_some]

end Apue.Ipp
