/-
# Lexigraph.Proofs.Grammar.Derivation -- the texts that are read are those that derive

Reading a text succeeds exactly when the text derives from some tree of the grammar of grammar
text. The tree is known from the text then, and the grammar that is read is the tree and nothing
else (`ofText_derivation`).
-/

import Lexigraph.Proofs.Grammar.Tree
import Lexigraph.Proofs.Pattern.Accepted
import Lexigraph.Proofs.Pattern.Derived

namespace Lexigraph.Grammar

/-- **A text is read exactly when it derives**, from one tree, which is the grammar that is
read. -/
theorem ofText_derivation (text : String) :
    ((∃ g, ofText text = .ok g) ↔ ∃ p : Phrase, text.toList ∈ p.documents) ∧
      ∀ g, ofText text = .ok g → ∃ p : Phrase, text.toList ∈ p.documents ∧
        (∀ q : Phrase, text.toList ∈ q.documents → q = p) ∧ ∃ root, g.IsTree root p.pattern := by
  have hread {g : Grammar} (h : ofText text = .ok g) :
      ∃ p : Phrase, text.toList ∈ p.documents ∧ ofPattern p.pattern = g := by
    obtain ⟨pattern, hpattern, rfl⟩ := ofText_eq_ok_iff.1 h
    obtain ⟨p, hp, rfl⟩ := Pattern.derives_of_ofText hpattern
    exact ⟨p, hp, rfl⟩
  refine ⟨⟨?_, ?_⟩, ?_⟩
  · rintro ⟨g, h⟩
    obtain ⟨p, hp, -⟩ := hread h
    exact ⟨p, hp⟩
  · rintro ⟨p, hp⟩
    exact ⟨_, ofText_eq_ok_iff.2 ⟨_, Pattern.ofText_of_mem_documents hp, rfl⟩⟩
  · intro g h
    obtain ⟨p, hp, rfl⟩ := hread h
    exact ⟨p, hp, fun q hq => Phrase.documents_unique hq hp, _, ofPattern_isTree p.pattern⟩

/-- A text with two messages, of which the second one counts. -/
def twoMessages : String :=
  "@error(\"old\")@pinned @error ( \"new\" )" ++
    "(\"a\"|\"\\u\x7b62\x7d\") -> word.\x7b ( ( ),0,3 ),()->\"end\"\x7d "

theorem ofText_derivation_twoMessages :
    ∃ g, ofText twoMessages = .ok g ∧ ∃ p : Phrase, twoMessages.toList ∈ p.documents ∧
      (∀ q : Phrase, twoMessages.toList ∈ q.documents → q = p) ∧
        ∃ root, g.IsTree root p.pattern := by
  have hok : (ofText twoMessages).isOk = true := by decide +kernel
  cases htext : ofText twoMessages with
  | ok g => exact ⟨g, rfl, (ofText_derivation twoMessages).2 g htext⟩
  | error e =>
    rw [htext] at hok
    cases hok

end Lexigraph.Grammar
