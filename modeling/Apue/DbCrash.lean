import Apue.DbReopen

/-!
Calls of db_store and db_delete whose process is stopped between two writes. An
insertion links a record only when it is complete, and takes it off the free
list before it touches it. A deletion overwrites the pointer of the record while
the record is still on its chain, and repairs the chain last: in between, what
comes behind the record cannot be found.
-/
namespace Apue.Db

open Programs Decimal ByteFiles Pointers Threads

variable {fuel : ℕ} {st : Store} {key key' data : List Byte}

section Resting

variable {files : Files} {chain : ℕ → List ℕ} {free pre rest : List ℕ} {o : ℕ}
variable (h : Resting files st chain free)
include h

section Deleting

variable (hchain : chain (hashOf key) = pre ++ o :: rest) (hkey : (st.body o).key = key)
include hchain hkey

end Deleting

variable (hfuel : PTR_MAX < fuel)
include hfuel

variable {db : DB} (hdb : db.Opened)
include hdb

end Resting

section Reached

variable {P : Type} [DecidableEq P] {allowed : P → Op → Prop}

end Reached

end Apue.Db
