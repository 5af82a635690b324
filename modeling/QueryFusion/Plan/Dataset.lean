import QueryFusion.Text.Quoted

/-!
# Physical configuration and datasets

The sizes that the compiler consults. A configuration is usable when both group-by sizes are
positive and the reader limit is not negative; the memory of a group-by is their product as a 64-bit
word, which wraps around.
-/

namespace QueryFusion.Plan

/-- Physical parameters. -/
structure Config where
  /-- How many frames a group-by may use. -/
  framesForGroupBy : Int64 := 32
  frameSize : Int64 := 32768
  /-- The most readers a scan function may bind; zero is no limit. -/
  maxReaders : Int64 := 0
deriving DecidableEq, Repr, Inhabited

/-- Why a configuration is not usable. -/
inductive ConfigError where
  | framesForGroupBy (got : Int64)
  | frameSize (got : Int64)
  | maxReaders (got : Int64)
deriving DecidableEq, Repr

def ConfigError.message : ConfigError → String
  | framesForGroupBy got => s!"plan: physical config: framesForGroupBy must be positive (got {got.toInt})"
  | frameSize got => s!"plan: physical config: frameSize must be positive (got {got.toInt})"
  | maxReaders got => s!"plan: physical config: maxReaders must not be negative (got {got.toInt})"

namespace Config

def groupByMemory (c : Config) : Int64 := c.framesForGroupBy * c.frameSize

def check (c : Config) : Except ConfigError Config :=
  if c.framesForGroupBy ≤ 0 then throw (.framesForGroupBy c.framesForGroupBy)
  else if c.frameSize ≤ 0 then throw (.frameSize c.frameSize)
  else if c.maxReaders < 0 then throw (.maxReaders c.maxReaders)
  else pure c

end Config

/-!
## Datasets

The data sources a plan can scan. Only an internal dataset in the column format can be scanned
through column readers.
-/

/-- Where a dataset is stored. -/
inductive Storage where
  | internal
  | external
deriving DecidableEq, Repr

/-- The storage format of a dataset. -/
inductive Format where
  | row
  | column
deriving DecidableEq, Repr

def Storage.code : Storage → Nat
  | internal => 0
  | external => 1

def Format.code : Format → Nat
  | row => 0
  | column => 1

/-- The kind of storage with a name; the empty name is the default. -/
def Storage.ofName? (s : String) : Option Storage :=
  if s = "" ∨ s = "internal" then some internal
  else if s = "external" then some external
  else none

/-- The format with a name; the empty name is the default. -/
def Format.ofName? (s : String) : Option Format :=
  if s = "" ∨ s = "column" then some column
  else if s = "row" then some row
  else none

/-- A data source. -/
structure Dataset where
  name : String
  storage : Storage
  format : Format
deriving DecidableEq, Repr

def Dataset.isColumnar (d : Dataset) : Bool := d.storage == .internal && d.format == .column

/-- The datasets by name. -/
structure Catalog where
  /-- The datasets, of one name the latest first. -/
  entries : List (String × Dataset) := []

/-- Why a dataset cannot be used. -/
inductive CatalogError where
  | unknown (name : String)
deriving DecidableEq, Repr

def CatalogError.message : CatalogError → String
  | unknown name => s!"plan: unknown dataset {Text.quote name}"

namespace Catalog

/-- Adds a dataset; one of the same name is replaced. -/
def insert (catalog : Catalog) (name : String) (d : Dataset) : Catalog :=
  ⟨(name, d) :: catalog.entries⟩

def find (catalog : Catalog) (name : String) : Except CatalogError Dataset :=
  match catalog.entries.lookup name with
  | some d => pure d
  | none => throw (.unknown name)

end Catalog

end QueryFusion.Plan
