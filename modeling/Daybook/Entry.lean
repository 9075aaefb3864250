import Daybook.Value

/-!
Entries: what reading a ledger gives. An entry is of the kind that a directive describes, or it is a
transaction, or it records a line that no directive accepts.
-/
namespace Daybook

/-- One account of a transaction. An amount that is left out is there to be inferred. -/
structure Posting where
  account : String
  amount : Option Amount
  metadata : Metadata

/-- What a transaction says besides its date and metadata. -/
structure Transaction where
  flag : String
  payee : Option String
  narration : String
  postings : List Posting
  tags : List String
  links : List String

/-- A line that no directive accepts: the word that seems to name its kind, its second quoted text,
and the line with its indented continuation. -/
structure Unrecognised where
  type : String
  value : Option String
  body : String

/-- What an entry is, with the data of its kind. -/
inductive Detail where
  | plain (kind : String) (fields : Pairs Value)
  | transaction (t : Transaction)
  | unrecognised (u : Unrecognised)

/-- A dated entry with its metadata. -/
structure Entry where
  date : String
  metadata : Metadata
  detail : Detail

namespace Entry

/-- The kind of the entry. -/
def kind (e : Entry) : String :=
  match e.detail with
  | .plain kind _ => kind
  | .transaction _ => "transaction"
  | .unrecognised _ => "unknown_directive"

/-- The fields that the entry's directive gave it. -/
def fields (e : Entry) : Pairs Value :=
  match e.detail with
  | .plain _ fields => fields
  | _ => []

/-- Where the entry stands, as its metadata says. -/
def location (e : Entry) : Option Scalar := e.metadata.get? "location"

/-- The warning of a line that no directive accepts. -/
def warning (e : Entry) : Option Scalar :=
  match e.detail with
  | .unrecognised _ => e.metadata.get? "warning"
  | _ => none

/-- Stamps the entry's place into its metadata. -/
def locatedAt (e : Entry) (location : String) : Entry :=
  { e with metadata := e.metadata.put "location" (.text location) }

/-- Is the entry a line that no directive accepts? -/
def isUnrecognised (e : Entry) : Bool :=
  match e.detail with
  | .unrecognised _ => true
  | _ => false

end Entry

/-- What an entry shows under a name. -/
inductive Shown where
  | value (v : Value)
  | postings (ps : List Posting)

namespace Shown

/-- A text that may be missing. -/
def ofText? (s : Option String) : Shown := .value ((s.map Value.text).getD .null)

/-- A scalar that may be missing. -/
def ofScalar? (s : Option Scalar) : Shown := .value (.scalar (s.getD .null))

end Shown

/-- What an entry shows under a name: its own data and its place come before the fields that its
directive gave it. -/
def Entry.get? (e : Entry) (name : String) : Option Shown :=
  if name = "kind" then some (.value (.text e.kind))
  else if name = "date" then some (.value (.text e.date))
  else if name = "meta" then some (.value (.ofMetadata e.metadata))
  else if name = "location" then some (.ofScalar? e.location)
  else
    match e.detail with
    | .plain _ fields => (fields.get? name).map .value
    | .transaction t =>
      if name = "flag" then some (.value (.text t.flag))
      else if name = "payee" then some (.ofText? t.payee)
      else if name = "narration" then some (.value (.text t.narration))
      else if name = "postings" then some (.postings t.postings)
      else if name = "tags" then some (.value (.texts t.tags))
      else if name = "links" then some (.value (.texts t.links))
      else none
    | .unrecognised u =>
      if name = "warning" then some (.ofScalar? e.warning)
      else if name = "type" then some (.value (.text u.type))
      else if name = "value" then some (.ofText? u.value)
      else if name = "body" then some (.value (.text u.body))
      else none

/-- Looks a name up. What the class of entries has of its own under the name, such as a method,
comes before what the entry shows; what is not there has the default. -/
def Entry.get {α : Type} (ofClass : String → Option α) (e : Entry) (name : String)
    (default : α ⊕ Shown) : α ⊕ Shown :=
  match ofClass name with
  | some a => .inl a
  | none => ((e.get? name).map .inr).getD default

end Daybook
