import OData.Proofs.Grammar.Completeness
import OData.Proofs.Grammar.Soundness
import OData.Proofs.Query.Equality
import OData.Proofs.Token.Lexing

/-!
# Filters are read exactly as they are derived

Soundness says that the tokens which a filter took are a way to write it, and completeness that
whatever tokens are a way to write is read off them.  Both speak of a part of the tokens, with
something behind it.  A filter is all the tokens of a text, and the end of the text, which stands
behind them, goes on with no expression; so here the two make one equivalence.  What is read is
one tree, so no filter can be derived in two ways.
-/
namespace OData.Grammar

/-- **The filter that is read off the tokens of a text is the one that they are a way to
write**, and there is none exactly if they are a way to write none.  The limits are no
obstacle as long as there are no more tokens than they allow brackets and operators. -/
theorem filter_reads_iff (ctx : Context) {text : Slice} {ts : List Token}
    (hts : text.tokens = .ok ts) (hd : ts.length ≤ ctx.settings.maxDepth)
    (ho : ts.length ≤ ctx.settings.maxOperatorDepth) (e : Expr) :
    (∃ t, filter ctx (State.start ts 0) = .ok e t) ↔
      Derives ctx.settings .disjunction ts.dropLast e ∧ e.isBoolean = true := by
  have hends := Slice.ends_of_tokens hts
  constructor
  · rintro ⟨t, h⟩
    exact sound_complete (sound_boolean ctx) hends h
  · intro h
    refine (complete_boolean ctx).complete trivial hends h rfl ⟨?_, ?_⟩
    · simpa [State.start] using hd
    · simpa [State.start] using ho

/-- The tree of `Items/any(x: x/A add 1 gt 2 mul 3) and null'Int' eq cast(5,Edm.Int32)`. -/
def anyAndCast : Expr :=
  .logical .and
    (.call .any
      [.property ⟨"Items", none⟩,
        .lambda "x"
          (.comparison .gt
            (.math .add (.property ⟨"x/A", none⟩) (.literal (.integer 1)))
            (.math .mul (.literal (.integer 2)) (.literal (.integer 3))))])
    (.comparison .eq (.literal (.null (some "Int"))) (.cast (.integer 5) .int32))

theorem derives_anyAndCast :
    ∃ ts, (Slice.ofString
        "Items/any(x: x/A add 1 gt 2 mul 3) and null'Int' eq cast(5,Edm.Int32)" 8).tokens =
          .ok ts ∧
      ts.length ≤ Settings.standard.maxDepth ∧ ts.length ≤ Settings.standard.maxOperatorDepth ∧
      Derives Settings.standard .disjunction ts.dropLast anyAndCast := by
  have hrun : run (filter ⟨Settings.standard, none⟩) 0 (Slice.ofString
      "Items/any(x: x/A add 1 gt 2 mul 3) and null'Int' eq cast(5,Edm.Int32)" 8) =
        .ok anyAndCast := by
    decide +kernel
  have hlength : (Slice.ofString
      "Items/any(x: x/A add 1 gt 2 mul 3) and null'Int' eq cast(5,Edm.Int32)" 8).tokens.map
        List.length = .ok 29 := by decide +kernel
  obtain ⟨ts, t, hts, ht⟩ := run_eq_ok.1 hrun
  rw [hts] at hlength
  obtain hlength : ts.length = 29 := Except.ok.inj hlength
  have hd : ts.length ≤ Settings.standard.maxDepth := by rw [hlength]; decide
  have ho : ts.length ≤ Settings.standard.maxOperatorDepth := by rw [hlength]; decide
  exact ⟨ts, hts, hd, ho, ((filter_reads_iff _ hts hd ho _).1 ⟨t, ht⟩).1⟩

end OData.Grammar
