import ImpToC.Proofs.Parsing.Numbers
import ImpToC.Proofs.Scoping.Files
import ImpToC.Proofs.Stages

/-!
# Sources have well-scoped code

The names of a program that is read from a source are words of the source, so they can be
names of C, and whatever a source is compiled to is well scoped.
-/

namespace ImpToC

namespace Source

variable {source : Source}

/-- The text of C that any source is compiled to is well scoped. -/
theorem compile_wellScoped [Host] {s : Sentence} {p : Program} {t : Typing} {f : C.File}
    (h : source.compile .codegen = .ok (.generated s p t f)) :
    ∃ front body, C.WellScoped f.text.toList front body t.symbols.keys
      (p.expressions.countP Expr.isComputed) := by
  obtain ⟨⟨hscan, hprogram, hcheck, g, hgenerate⟩, -⟩ := made_of_compile h
  have hids : (p.expressions.map Expr.id).Nodup :=
    (p.expressions_perm.map Expr.id).nodup_iff.mpr (Parser.nodup_ids_of_parse hprogram)
  exact ⟨_, _, (C.lowered_of_generate hids hcheck hgenerate).wellScoped
    fun d hd => ((spelt_of_parse hscan hprogram).1 d hd).isNamePart_of_name⟩

end Source

end ImpToC
