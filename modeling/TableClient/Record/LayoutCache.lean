import TableClient.Log.Line
import TableClient.Record.Layout
import TableClient.Text.Digits

/-! A cache of layouts, one for each record type. A layout is built when it is first asked for, from
the names registered by then, and stays as it is; a type that has its layout takes no more names. A
failed build leaves nothing behind. -/

namespace TableClient

universe u

variable {ι : Type u} {R : ι → Type}

structure LayoutCache (R : ι → Type) where
  config : LayoutConfig
  /-- The layouts built so far, the latest first. -/
  layouts : List ((i : ι) × Layout (R i))
  /-- The names registered for record types. -/
  mappings : List (ι × Renames)

namespace LayoutCache

def start (config : LayoutConfig) : LayoutCache R := ⟨config, [], []⟩

def size (cache : LayoutCache R) : Nat := cache.layouts.length

variable [DecidableEq ι]

/-- The layout of a type within a list of layouts. -/
def findIn (i : ι) : List ((i : ι) × Layout (R i)) → Option (Layout (R i))
  | [] => none
  | ⟨j, l⟩ :: rest => if same : j = i then some (same ▸ l) else findIn i rest

/-- The layout of a type, if it was built. -/
def find? (cache : LayoutCache R) (i : ι) : Option (Layout (R i)) :=
  findIn i cache.layouts

def isCached (cache : LayoutCache R) (i : ι) : Bool :=
  (cache.find? i).isSome

/-- The names registered last for a type. -/
def mapping? (cache : LayoutCache R) (i : ι) : Option Renames :=
  (cache.mappings.find? (·.1 = i)).map Prod.snd

/-- Registers the names of a type, in place of earlier ones, as long as it has no layout. -/
def register (types : (i : ι) → RecordType (R i)) (cache : LayoutCache R) (i : ι)
    (mapping : Renames) : Except MappingError (LayoutCache R) :=
  if cache.isCached i then
    .error (.invalidArgument
      ("mapping for " ++ (types i).name ++ " registered after its descriptor was built"))
  else .ok { cache with mappings := (i, mapping) :: cache.mappings }

/-- What one request to a cache leads to. -/
structure Lookup (R : ι → Type) (i : ι) where
  result : Except MappingError (Layout (R i))
  logged : List LogEntry
  cache : LayoutCache R

/-- The layout of a type, built if need be. -/
def lookup (types : (i : ι) → RecordType (R i)) (cache : LayoutCache R) (i : ι) : Lookup R i :=
  match cache.find? i with
  | some l => ⟨.ok l, [], cache⟩
  | none =>
    match Layout.build cache.config (cache.mapping? i) (types i) with
    | .ok l =>
      ⟨.ok l,
        [.ofEvent .descriptorBuilt
          [("fields", String.ofList (Text.decimal (types i).fields.length)),
            ("type", (types i).name)]],
        { cache with layouts := ⟨i, l⟩ :: cache.layouts }⟩
    | .error e =>
      ⟨.error e,
        [.ofEvent .descriptorRejected
          [("code", e.code), ("reason", e.message), ("type", (types i).name)]],
        cache⟩

end LayoutCache

end TableClient
