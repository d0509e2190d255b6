import OData.Keyword

/-!
# The words of the query language

Every closed list of words that a query may use.  None of them is reserved in the
text as such: apart from the operators, a word is also a legal property name, and
only its place tells which it is.
-/

namespace OData

/-! ## Operators -/

/-- **The comparisons.** -/
inductive ComparisonOp where
  | eq | ne | ge | gt | le | lt
  deriving DecidableEq, Repr

/-- The word of a comparison. -/
def ComparisonOp.word : ComparisonOp → String
  | .eq => "eq"
  | .ne => "ne"
  | .ge => "ge"
  | .gt => "gt"
  | .le => "le"
  | .lt => "lt"

instance : Keyword ComparisonOp where
  all := [.eq, .ne, .ge, .gt, .le, .lt]
  word := ComparisonOp.word
  mem_all := by intro a; cases a <;> decide
  nodup_words := by decide

/-- **The arithmetic operators.** -/
inductive MathOp where
  | add | sub | mul | div | mod
  deriving DecidableEq, Repr

/-- The word of an arithmetic operator. -/
def MathOp.word : MathOp → String
  | .add => "add"
  | .sub => "sub"
  | .mul => "mul"
  | .div => "div"
  | .mod => "mod"

instance : Keyword MathOp where
  all := [.add, .sub, .mul, .div, .mod]
  word := MathOp.word
  mem_all := by intro a; cases a <;> decide
  nodup_words := by decide

/-- The operators that bind tighter than addition and subtraction. -/
def MathOp.isMultiplicative : MathOp → Bool
  | .mul | .div | .mod => true
  | .add | .sub => false

/-- The addition or subtraction that a word stands for. -/
def MathOp.additive? (w : String) : Option MathOp :=
  (Keyword.find? w).filter fun op => !op.isMultiplicative

/-- The tighter operator that a word stands for. -/
def MathOp.multiplicative? (w : String) : Option MathOp :=
  (Keyword.find? w).filter MathOp.isMultiplicative

/-- **The connectives.** -/
inductive LogicalOp where
  | and | or
  deriving DecidableEq, Repr

/-- The word of a connective. -/
def LogicalOp.word : LogicalOp → String
  | .and => "and"
  | .or => "or"

instance : Keyword LogicalOp where
  all := [.and, .or]
  word := LogicalOp.word
  mem_all := by intro a; cases a <;> decide
  nodup_words := by decide

/-- The words that are operators, which alone are never taken for a property name. -/
def isOperatorWord (w : String) : Bool :=
  (Keyword.find? w : Option ComparisonOp).isSome || (Keyword.find? w : Option MathOp).isSome ||
    (Keyword.find? w : Option LogicalOp).isSome

/-! ## Functions -/

/-- **How many arguments a function takes.** -/
structure Arity where
  /-- The least number. -/
  least : Nat
  /-- The greatest number. -/
  most : Nat
  deriving DecidableEq, Repr

/-- An arity allows the numbers between its bounds. -/
def Arity.allows (a : Arity) (n : Nat) : Bool := a.least ≤ n && n ≤ a.most

/-- **The built-in functions.** -/
inductive Builtin where
  | startsWith | endsWith | substringOf | contains | isOf | any | all | toLower | toUpper | trim
  | length | year | month | day | hour | minute | second | round | floor | ceiling | indexOf
  | concat | substring | replace
  deriving DecidableEq, Repr

namespace Builtin

/-- The name of a function. -/
def word : Builtin → String
  | .startsWith => "startswith"
  | .endsWith => "endswith"
  | .substringOf => "substringof"
  | .contains => "contains"
  | .isOf => "IsOf"
  | .any => "any"
  | .all => "all"
  | .toLower => "tolower"
  | .toUpper => "toupper"
  | .trim => "trim"
  | .length => "length"
  | .year => "year"
  | .month => "month"
  | .day => "day"
  | .hour => "hour"
  | .minute => "minute"
  | .second => "second"
  | .round => "round"
  | .floor => "floor"
  | .ceiling => "ceiling"
  | .indexOf => "indexof"
  | .concat => "concat"
  | .substring => "substring"
  | .replace => "replace"

instance : Keyword Builtin where
  all :=
    [.startsWith, .endsWith, .substringOf, .contains, .isOf, .any, .all, .toLower, .toUpper,
     .trim, .length, .year, .month, .day, .hour, .minute, .second, .round, .floor, .ceiling,
     .indexOf, .concat, .substring, .replace]
  word := Builtin.word
  mem_all := by intro a; cases a <;> decide
  nodup_words := by decide

/-- The number of arguments of a function.  For the two collection functions it is
the number of lambdas; the collection stands in front of the name. -/
def arity : Builtin → Arity
  | .startsWith | .endsWith | .substringOf | .contains | .indexOf | .concat => ⟨2, 2⟩
  | .isOf => ⟨1, 2⟩
  | .substring | .replace => ⟨2, 3⟩
  | .any => ⟨0, 1⟩
  | .all | .toLower | .toUpper | .trim | .length | .year | .month | .day | .hour | .minute
  | .second | .round | .floor | .ceiling => ⟨1, 1⟩

/-- The functions whose result is true or false. -/
def isBoolean : Builtin → Bool
  | .startsWith | .endsWith | .substringOf | .contains | .isOf | .any | .all => true
  | _ => false

/-- The functions that range over a collection and are written after its path. -/
def isCollection : Builtin → Bool
  | .any | .all => true
  | _ => false

end Builtin

/-! ## Types and units -/

/-- **The types that a literal can be cast to.** -/
inductive EdmType where
  | boolean | string | decimal | int32 | timeOfDay | date | dateTimeOffset
  deriving DecidableEq, Repr

/-- The qualified name of a type. -/
def EdmType.word : EdmType → String
  | .boolean => "Edm.Boolean"
  | .string => "Edm.String"
  | .decimal => "Edm.Decimal"
  | .int32 => "Edm.Int32"
  | .timeOfDay => "Edm.TimeOfDay"
  | .date => "Edm.Date"
  | .dateTimeOffset => "Edm.DateTimeOffset"

instance : Keyword EdmType where
  all := [.boolean, .string, .decimal, .int32, .timeOfDay, .date, .dateTimeOffset]
  word := EdmType.word
  mem_all := by intro a; cases a <;> decide
  nodup_words := by decide

/-- **The units of time** that a property or the current instant can be asked for. -/
inductive TimeUnit where
  | microseconds | milliseconds | second | minute | hour | day | week | month | quarter | year
  | decade | century | millennium
  deriving DecidableEq, Repr

/-- The word of a unit. -/
def TimeUnit.word : TimeUnit → String
  | .microseconds => "microseconds"
  | .milliseconds => "milliseconds"
  | .second => "second"
  | .minute => "minute"
  | .hour => "hour"
  | .day => "day"
  | .week => "week"
  | .month => "month"
  | .quarter => "quarter"
  | .year => "year"
  | .decade => "decade"
  | .century => "century"
  | .millennium => "millennium"

instance : Keyword TimeUnit where
  all :=
    [.microseconds, .milliseconds, .second, .minute, .hour, .day, .week, .month, .quarter, .year,
     .decade, .century, .millennium]
  word := TimeUnit.word
  mem_all := by intro a; cases a <;> decide
  nodup_words := by decide

/-! ## Transformations -/

/-- **The methods of aggregation.** -/
inductive AggregateMethod where
  | sum | min | max | average | countDistinct
  deriving DecidableEq, Repr

/-- The word of an aggregation method. -/
def AggregateMethod.word : AggregateMethod → String
  | .sum => "sum"
  | .min => "min"
  | .max => "max"
  | .average => "average"
  | .countDistinct => "countdistinct"

instance : Keyword AggregateMethod where
  all := [.sum, .min, .max, .average, .countDistinct]
  word := AggregateMethod.word
  mem_all := by intro a; cases a <;> decide
  nodup_words := by decide

/-- **The kinds of stages** of a pipeline. -/
inductive StageKind where
  | identity | filter | aggregate | compute | expand | topCount | topSum | topPercent
  | bottomCount | bottomSum | bottomPercent | search
  deriving DecidableEq, Repr

/-- The name of a stage kind. -/
def StageKind.word : StageKind → String
  | .identity => "identity"
  | .filter => "filter"
  | .aggregate => "aggregate"
  | .compute => "compute"
  | .expand => "expand"
  | .topCount => "topcount"
  | .topSum => "topsum"
  | .topPercent => "toppercent"
  | .bottomCount => "bottomcount"
  | .bottomSum => "bottomsum"
  | .bottomPercent => "bottompercent"
  | .search => "search"

instance : Keyword StageKind where
  all :=
    [.identity, .filter, .aggregate, .compute, .expand, .topCount, .topSum, .topPercent,
     .bottomCount, .bottomSum, .bottomPercent, .search]
  word := StageKind.word
  mem_all := by intro a; cases a <;> decide
  nodup_words := by decide

/-! ## Options -/

/-- **The query options.** -/
inductive QueryOption where
  | select | expand | filter | orderBy | callback | format | search | count | skip | top | apply
  deriving DecidableEq, Repr

/-- The name of an option, with its dollar sign. -/
def QueryOption.word : QueryOption → String
  | .select => "$select"
  | .expand => "$expand"
  | .filter => "$filter"
  | .orderBy => "$orderby"
  | .callback => "$callback"
  | .format => "$format"
  | .search => "$search"
  | .count => "$count"
  | .skip => "$skip"
  | .top => "$top"
  | .apply => "$apply"

instance : Keyword QueryOption where
  all :=
    [.select, .expand, .filter, .orderBy, .callback, .format, .search, .count, .skip, .top, .apply]
  word := QueryOption.word
  mem_all := by intro a; cases a <;> decide
  nodup_words := by decide

/-- **The directions of a sort**; ascending if none is written. -/
inductive SortDirection where
  | ascending | descending
  deriving DecidableEq, Repr, Inhabited

/-- The word of a direction. -/
def SortDirection.word : SortDirection → String
  | .ascending => "asc"
  | .descending => "desc"

instance : Keyword SortDirection where
  all := [.ascending, .descending]
  word := SortDirection.word
  mem_all := by intro a; cases a <;> decide
  nodup_words := by decide

end OData
