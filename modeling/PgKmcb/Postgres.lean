import PgKmcb.Lib.Run

/-!
# The server side of the extension

What the functions of the extension see of PostgreSQL: errors, SQL NULL, and the
memory image of a `text` argument.  A `text` carries its length in a header and is
*not* zero-terminated, so its payload is followed in memory by bytes that belong to
somebody else; a `TextImage` keeps both.

Memory is granted on request, except where the size of the request is itself the
result of machine arithmetic; such a request goes through `allocate`.
-/

namespace PgKmcb

open PgKmcb.Lib

/-- A byte of memory. -/
abbrev Byte := UInt8

/-- The error codes the extension reports. -/
inductive ErrCode where
  | dataException
  | invalidParameterValue
  | datetimeValueOutOfRange
  | featureNotSupported
deriving DecidableEq, Repr

/-- The errors that end a call. -/
inductive PgError where
  /-- `ereport(ERROR, (errcode(code), errmsg(msg)))`. -/
  | ereport (code : ErrCode) (msg : String)
  /-- The allocator refused a request. -/
  | palloc (request : ℕ)
deriving DecidableEq, Repr

/-- A call of a C function of the extension. -/
abbrev Call (α : Type) := Run PgError α

/-- What an SQL function returns. -/
inductive SqlResult (α : Type) where
  /-- `PG_RETURN_NULL`. -/
  | null
  /-- A datum made from a C value; for a `text` that value is a pointer. -/
  | datum (value : α)
deriving DecidableEq, Repr

/-- `if (NULL == ptr_text) PG_RETURN_NULL(); else PG_RETURN_TEXT_P(..)`. -/
def textOrNull {α : Type} : Option α → SqlResult α
  | none => .null
  | some text => .datum text

/-- `palloc`, for an allocator that grants some requests and refuses the others;
the value is the size of the block. -/
def allocate (grants : ℕ → Bool) (request : ℕ) : Call ℕ :=
  if grants request then .ok request else .error (.raised (.palloc request))

/-- A detoasted `text` argument in memory: the bytes its header counts, and the
readable bytes behind them. -/
structure TextImage where
  /-- The bytes of the value. -/
  payload : List Byte
  /-- What the memory holds behind the value. -/
  behind : List Byte

/-- `VARDATA`: the memory from the first payload byte on. -/
def TextImage.vardata (t : TextImage) : List Byte := t.payload ++ t.behind

/-- `VARSIZE_ANY_EXHDR`: the length the header records. -/
def TextImage.varsizeExhdr (t : TextImage) : ℕ := t.payload.length

/-- `VARHDRSZ`, the size of a header. -/
def varhdrsz : ℕ := 4

/-- `sizeof(char *)`. -/
def pointerSize : ℕ := 8

/-- A `text` built by `SET_VARSIZE` and a copy of bytes behind its header. -/
structure Varlena where
  /-- The size the header records, its own bytes included. -/
  size : ℕ
  /-- The bytes behind the header. -/
  data : List Byte
deriving DecidableEq, Repr

/-- The bytes that the size in the header counts. -/
def Varlena.payload (v : Varlena) : List Byte := v.data.take (v.size - varhdrsz)

end PgKmcb
