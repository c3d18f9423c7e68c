/-
# Lexigraph.Proofs.Grammar.RoundTrip -- reading undoes writing

What is written of a state of a built grammar can be read into any grammar. The state that
is read unfolds to the same pattern without the flags that have no name, of which nothing is
written (`read_textOf`). So it is written the same, unless a set of annotations holds such
flags only: then a blank stands in front of what it describes, which is not written again
(`read_textOf_unnamed`). The parts are the text of a pattern, which denotes the pattern if its
bounds are in order, and planting, which gives a state that depicts what was planted.
-/

import Lexigraph.Proofs.Grammar.Build
import Lexigraph.Proofs.Grammar.Proper
import Lexigraph.Proofs.Pattern.RoundTrip

namespace Lexigraph

namespace Grammar

variable {g : Grammar}

/-- What is written is the text of the pattern that the state depicts. -/
theorem textOf_eq_ok_iff (hg : g.Proper) {id : StateId} {text : String} :
    g.textOf id = .ok text ↔ ∃ p, g.Depicts id p ∧ String.ofList p.text = text := by
  show g.unfold id >>= (fun p => pure (toString p)) = .ok text ↔ _
  rw [bind_eq_ok_iff]
  constructor
  · rintro ⟨p, hp, htext⟩
    exact ⟨p, (unfold_eq_ok_iff hg.plainTerminals).1 hp, Except.ok.inj htext⟩
  · rintro ⟨p, hp, htext⟩
    exact ⟨p, (unfold_eq_ok_iff hg.plainTerminals).2 hp, congrArg Except.ok htext⟩

/-- A state that depicts a pattern is written as its text, in a proper grammar or not. -/
theorem Depicts.textOf {id : StateId} {p : Pattern} (h : g.Depicts id p) :
    g.textOf id = .ok (String.ofList p.text) := by
  have hunfold : g.unfold id = .ok p :=
    unfoldFrom_of_depicts _ h (by simp) (Nat.le_succ_of_le h.height_le)
  show g.unfold id >>= (fun p => pure (toString p)) = _
  rw [hunfold]
  rfl

/-- To read the text of a pattern is to plant the pattern without the flags that have no name. -/
theorem read_text {p : Pattern} (hp : p.Ordered) (h : Grammar) :
    read (String.ofList p.text) h = (.ok (p.named.plant h).1, (p.named.plant h).2) := by
  apply read_of_ofText
  rw [String.toList_ofList, Pattern.ofText_text hp]

/-- A pattern that is planted is depicted by its state. -/
theorem plant_depicts (p : Pattern) (h : Grammar) : (p.plant h).2.Depicts (p.plant h).1 p := by
  cases (p.plant_sprouts h).depicts with
  | cons head _ => exact head

/-- **Reading undoes writing, but for the flags without a name.** Whatever grammar the text of a
state is read into, reading succeeds, and the state that is read unfolds to the pattern that the
first one unfolds to, without those flags. That is the same pattern exactly if there are none of
them, and the same text exactly if no set of annotations holds nothing else. -/
theorem read_textOf (hg : Built g) {s : StateId} {text : String} (htext : g.textOf s = .ok text)
    (h : Grammar) :
    ∃ id h' p, read text h = (.ok id, h') ∧ g.Depicts s p ∧ h'.Depicts id p.named ∧
      g.unfold s = .ok p ∧ h'.unfold id = .ok p.named ∧
      (p.named = p ↔ ∀ a ∈ p.annotationSets, a.unnamed = 0) ∧
      (h'.textOf id = .ok text ↔ ∀ a ∈ p.annotationSets, a.wordless = false) := by
  obtain ⟨p, hp, rfl⟩ := (textOf_eq_ok_iff hg.proper).1 htext
  have hplant := plant_depicts p.named h
  refine ⟨_, _, p, read_text (hp.ordered hg.proper) h, hp, hplant, ?_, ?_, Pattern.named_eq_self_iff,
    ?_⟩
  · exact (unfold_eq_ok_iff hg.proper.plainTerminals).2 hp
  · exact unfoldFrom_of_depicts _ hplant (by simp) (Nat.le_succ_of_le hplant.height_le)
  · rw [hplant.textOf, Except.ok.injEq, String.ofList_inj, Pattern.text_named_eq_iff]

/-- Up to three words as one token, and then one more. -/
def greeting : Grammar := empty.afterAll [
  .oneOf "word" ["hi", "say \"hi\""],
  .repetition ⟨0⟩ 1 (some 3),
  .link ⟨1⟩ ⟨0⟩,
  .retoken ⟨1⟩ (some "many words"),
  .annotate ⟨0⟩ { void := true, error := some "no\nword" }]

/-- The text of the greeting. -/
def greetingText : String :=
  "(@void @error(\"no\\nword\") (\"hi\" | \"say \\\"hi\\\"\")->word,1,3)->\"many words\"" ++
    ".@void @error(\"no\\nword\") (\"hi\" | \"say \\\"hi\\\"\")->word"

theorem read_textOf_greeting :
    ∃ id h' p, read greetingText greeting = (.ok id, h') ∧ greeting.Depicts ⟨1⟩ p ∧
      h'.Depicts id p.named ∧ greeting.unfold ⟨1⟩ = .ok p ∧ h'.unfold id = .ok p.named ∧
      (p.named = p ↔ ∀ a ∈ p.annotationSets, a.unnamed = 0) ∧
      (h'.textOf id = .ok greetingText ↔ ∀ a ∈ p.annotationSets, a.wordless = false) :=
  read_textOf (Built.empty.afterAll _) (by decide +kernel) greeting

/-- A letter with a flag that has no name. -/
def unnamedLetter : Grammar := empty.afterAll [
  .oneOf "a" ["a"],
  .annotate ⟨0⟩ { unnamed := 1 }]

/-- The letter is written with a blank in front, and read back without the flag. The blank is gone
when it is written again. -/
theorem read_textOf_unnamed :
    Built unnamedLetter ∧ unnamedLetter.textOf ⟨0⟩ = .ok " (\"a\")->a" ∧
      ∃ id h', read " (\"a\")->a" unnamedLetter = (.ok id, h') ∧
        h'.textOf id = .ok "(\"a\")->a" ∧ h'.unfold id ≠ unnamedLetter.unfold ⟨0⟩ := by
  have htext : unnamedLetter.textOf ⟨0⟩ = .ok " (\"a\")->a" := by decide +kernel
  have hread : (read " (\"a\")->a" unnamedLetter).1 = .ok ⟨1⟩ := by decide +kernel
  have hagain : (read " (\"a\")->a" unnamedLetter).2.textOf ⟨1⟩ = .ok "(\"a\")->a" := by
    decide +kernel
  refine ⟨Built.empty.afterAll _, htext, ?_⟩
  generalize read " (\"a\")->a" unnamedLetter = result at hread hagain ⊢
  rcases result with ⟨_, h'⟩
  cases hread
  refine ⟨⟨1⟩, h', rfl, hagain, fun hsame => ?_⟩
  -- the same pattern would be written the same
  unfold textOf at htext hagain
  rw [hsame, htext, Except.ok.injEq] at hagain
  exact absurd hagain (by decide +kernel)

end Grammar

end Lexigraph
