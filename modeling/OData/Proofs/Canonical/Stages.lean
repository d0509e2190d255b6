import OData.Proofs.Canonical.Expressions

/-!
# Printing stages

A stage is printed as its name and its arguments in parentheses, but for `identity`,
which is a word by itself.  The arguments of a plain stage are the places where a stage
could begin, so the values there are printed with care for that; the condition of a
`filter` and the path of an `expand` are not.
-/
namespace OData
open Grammar

/-! ## The printed form -/

mutual

/-- **The kinds of an argument** of a stage; `lead` says that a stage could stand there. -/
def StageArg.kinds (lead : Bool) : StageArg → List Kind
  | .expr e => e.kinds lead .disjunction
  | .named name (.expr e) => e.kinds lead .disjunction ++ [.word "as", .word name]
  | .named name (.aggregate a) =>
    (Expr.property a.property).kinds lead .disjunction ++
      [.word "with", .word a.method.word, .word "as", .word name]
  | .stage .identity _ => [.word StageKind.identity.word]
  | .stage kind args =>
    .word kind.word :: .leftParen :: (StageArg.listKinds kind.isPlain args ++ [.rightParen])

/-- The kinds of arguments, with commas between them. -/
def StageArg.listKinds (lead : Bool) : List StageArg → List Kind
  | [] => []
  | a :: as => a.kinds lead ++ StageArg.tailKinds lead as

/-- The kinds of arguments, each with a comma in front. -/
def StageArg.tailKinds (lead : Bool) : List StageArg → List Kind
  | [] => []
  | a :: as => .comma :: (a.kinds lead ++ StageArg.tailKinds lead as)

end

/-- **The kinds of a stage.** -/
def Transformation.kinds (t : Transformation) : List Kind := t.toArg.kinds false

/-- The kinds of a pipeline, with slashes between the stages. -/
def pipelineKinds (stages : List Transformation) : List Kind :=
  listed .slash Transformation.kinds stages

theorem StageArg.kinds_stage {kind : StageKind} (h : kind ≠ .identity) (lead : Bool)
    (args : List StageArg) : (StageArg.stage kind args).kinds lead =
      .word kind.word :: .leftParen :: (StageArg.listKinds kind.isPlain args ++ [.rightParen]) := by
  cases kind <;> first | rfl | exact absurd rfl h

theorem StageArg.tailKinds_eq (lead : Bool) (args : List StageArg) :
    StageArg.tailKinds lead args = args.flatMap fun a => .comma :: a.kinds lead := by
  induction args with
  | nil => rfl
  | cons a args ih => rw [StageArg.tailKinds, ih, List.flatMap_cons, List.cons_append]

theorem StageArg.listKinds_eq (lead : Bool) (args : List StageArg) :
    StageArg.listKinds lead args = listed .comma (StageArg.kinds lead) args := by
  cases args with
  | nil => rfl
  | cons a args => rw [StageArg.listKinds, listed, StageArg.tailKinds_eq]

/-! ## Printed stages -/

section Printing
variable {settings : Settings}

theorem StageKind.isNameText_word (kind : StageKind) : isNameText kind.word.toList = true := by
  cases kind <;> decide

theorem prints_filter {e : Expr} (h : e.WellFormed settings) (hb : e.isBoolean = true) :
    Prints (DerivesStage settings) (StageArg.kinds false (.stage .filter [.expr e]))
      ⟨.filter, [.expr e]⟩ := by
  have hargs : StageArg.listKinds false [.expr e] = e.kinds false .disjunction := by
    rw [StageArg.listKinds, StageArg.tailKinds, List.append_nil, StageArg.kinds]
  have hid : StageKind.filter ≠ .identity := nofun
  rw [StageArg.kinds_stage hid, StageKind.isPlain, hargs]
  refine Prints.called (StageKind.isNameText_word _) (prints_expr h false .disjunction) ?_
  exact fun w p q r hw => .filter p q r ⟨hw, hb⟩

theorem prints_expand {p : Property} {stages : List Transformation} (hp : IsPathName p.name)
    (hunit : p.unit = none) (h : ∀ t ∈ stages, Prints (DerivesStage settings) t.kinds t) :
    Prints (DerivesStage settings)
      (StageArg.kinds false
        (.stage .expand (.expr (.property p) :: stages.map Transformation.toArg)))
      ⟨.expand, .expr (.property p) :: stages.map Transformation.toArg⟩ := by
  obtain ⟨path, unit⟩ := p
  obtain rfl : unit = none := hunit
  obtain ⟨names, hs, he⟩ := hp
  obtain rfl : path = _ := he
  have hargs : StageArg.listKinds false
      (.expr (.property ⟨"/".intercalate names, none⟩) :: stages.map Transformation.toArg) =
      nameKinds ("/".intercalate names) ++ stages.flatMap fun t => .comma :: t.kinds := by
    rw [StageArg.listKinds, StageArg.tailKinds_eq, List.flatMap_map]
    show (nameKinds _ ++ []) ++ _ = _
    rw [List.append_nil]
    rfl
  have hid : StageKind.expand ≠ .identity := nofun
  rw [StageArg.kinds_stage hid, StageKind.isPlain, hargs]
  refine Prints.called (StageKind.isNameText_word _)
    ((prints_path hs).append (Prints.followed (.inl rfl) h)) ?_
  rintro _ p q r ⟨u, v, rfl, hu, hv⟩
  rw [List.append_assoc]
  exact .expand p q r hu hv

theorem prints_plain {kind : StageKind} {args : List StageArg} (hk : kind.isPlain = true)
    (hne : args ≠ []) (h : ∀ a ∈ args, Prints (DerivesArg settings) (a.kinds true) a) :
    Prints (DerivesStage settings) (StageArg.kinds false (.stage kind args)) ⟨kind, args⟩ := by
  have hid : kind ≠ .identity := by
    rintro rfl
    cases hk
  rw [StageArg.kinds_stage hid, hk, StageArg.listKinds_eq]
  refine Prints.called kind.isNameText_word (Prints.separated (.inl rfl) hne h) ?_
  exact fun w p q r hw => .plain kind p q r hk hw

/-- Where a stage could begin, a value is printed as an argument if what it begins with is not
a stage. -/
theorem prints_value {ks : List Kind} {a : StageArg} (h : Prints (DerivesValue settings) ks a)
    (hbegins : BeginsValue ks) : Prints (DerivesArg settings) ks a :=
  ⟨h.spelled, h.balanced, fun w hw ht => .value (h.derived w hw ht) (hbegins.not_beginsStage hw)⟩

theorem prints_named {e : Expr} {name : String} (h : e.WellFormed settings)
    (hname : IsWord name) :
    Prints (DerivesArg settings) (StageArg.kinds true (.named name (.expr e)))
      (.named name (.expr e)) := by
  have hlast : Prints (fun w (_ : Unit) => ∃ q, w = [⟨.word name, q⟩]) [.word name] () :=
    .single hname.isLone fun q => ⟨q, rfl⟩
  have hwords := hlast.cons (isLone_of_isNameText (w := "as") (by decide))
  refine prints_value (((prints_expr h true .disjunction).append hwords).map ?_)
    ((beginsValue_kinds h .disjunction).append nofun)
  rintro _ ⟨v, _, rfl, hv, p, _, rfl, q, rfl⟩
  exact .named name p q hv

theorem prints_aggregate {p : Property} {name : String} (method : AggregateMethod)
    (h : IsOperandName p.name) (hname : IsWord name) :
    Prints (DerivesArg settings) (StageArg.kinds true (.named name (.aggregate ⟨method, p⟩)))
      (.named name (.aggregate ⟨method, p⟩)) := by
  have hproperty : (Expr.property p).WellFormed settings := .property h
  have hmethod : isNameText method.word.toList = true := by cases method <;> decide
  have hlast : Prints (fun w (_ : Unit) => ∃ q, w = [⟨.word name, q⟩]) [.word name] () :=
    .single hname.isLone fun q => ⟨q, rfl⟩
  have hwords := ((hlast.cons (isLone_of_isNameText (w := "as") (by decide))).cons
    (isLone_of_isNameText hmethod)).cons (isLone_of_isNameText (w := "with") (by decide))
  refine prints_value (((prints_expr hproperty true .disjunction).append hwords).map ?_)
    ((beginsValue_kinds hproperty .disjunction).append nofun)
  rintro _ ⟨v, _, rfl, hv, p, _, rfl, q, _, rfl, r, _, rfl, s, rfl⟩
  exact .aggregate method name p q r s hv

mutual

/-- A well-formed stage is printed. -/
theorem prints_takes {kind : StageKind} {args : List StageArg} :
    kind.Takes settings args →
      Prints (DerivesStage settings) (StageArg.kinds false (.stage kind args)) ⟨kind, args⟩
  | .identity => .single (isLone_of_isNameText (by decide)) .identity
  | .filter h hb => prints_filter h hb
  | .expand hp hunit h => prints_expand hp hunit fun t ht => prints_takes (h t ht)
  | .plain hk hne h => prints_plain hk hne fun a ha => prints_arg (h a ha)

/-- A well-formed argument is printed, where a stage could begin. -/
theorem prints_arg {a : StageArg} :
    a.WellFormed settings → Prints (DerivesArg settings) (a.kinds true) a
  | .expr h =>
    prints_value ((prints_expr h true .disjunction).map fun _ => .plain)
      (beginsValue_kinds h .disjunction)
  | .named hname h => prints_named h hname
  | .aggregate method hname h => prints_aggregate method h hname
  | .stage h => by
    rename_i kind args
    have hlead : (StageArg.stage kind args).kinds true =
        (StageArg.stage kind args).kinds false := by
      cases kind <;> rfl
    rw [hlead]
    exact (prints_takes h).map fun w hw => .stage hw

end

theorem prints_stage {t : Transformation} (h : t.WellFormed settings) :
    Prints (DerivesStage settings) t.kinds t :=
  prints_takes h

/-- **A well-formed pipeline is printed.** -/
theorem prints_pipeline {stages : List Transformation} (hne : stages ≠ [])
    (h : ∀ t ∈ stages, t.WellFormed settings) :
    Prints (DerivesPipeline settings) (pipelineKinds stages) stages :=
  Prints.separated (.inr (.inl rfl)) hne fun t ht => prints_stage (h t ht)

end Printing

end OData
