/-
# Lexigraph.Proofs.TokenStream.ReadBack -- a grammar that is read back tokenizes alike

The text of a state denotes a grammar of its own, with other numbers and with nothing
shared. Its root depicts the pattern that the state depicts, but for flags that have no name,
so the two run alike over every source (`tokenize_ofText`). Neither run breaks a promise, and
neither is endless: a pattern is finite, so no chain of names in it goes on for ever.
-/

import Lexigraph.Proofs.Grammar.RoundTrip
import Lexigraph.Proofs.Grammar.SamePattern
import Lexigraph.Proofs.TokenStream.Lossless

namespace Lexigraph

open Attempt (SameAnswer)

/-- The same source, with tokens of the same spans and names. -/
structure TokenStream.SameTokens (g h : Grammar) (t u : TokenStream) : Prop where
  source : t.source = u.source
  tokens : List.Forall₂ (Token.SameNamed g h) t.tokens.toList u.tokens.toList

namespace Grammar

variable {g : Grammar}

/-- The grammar of a text starts from a state that depicts the pattern of the text. -/
theorem ofText_text {p : Pattern} (hp : p.Ordered) :
    ∃ h root, ofText (String.ofList p.text) = .ok h ∧ h.root = some root ∧
      h.Depicts root p.named := by
  have hroot := (plant_depicts p.named empty).withRoot (some (p.named.plant empty).1)
  refine ⟨_, _, ?_, rfl, hroot⟩
  unfold ofText
  rw [read_text hp]

/-- A run of a state with a pattern comes to an end and breaks no promise. -/
theorem Depicts.run_ends {root : StateId} {p : Pattern} (h : g.Depicts root p) (source : String)
    (settings : Settings) :
    (Session.run g root (.start source settings)).1 = .ok () ∨
      ∃ e, (Session.run g root (.start source settings)).1 = .error (.error e) := by
  have hsound : Session.Sound g (.start source settings) :=
    Session.start_sound source settings _ Memo.coherent_empty
  have hworks : Session.Works g _ (Session.run g root (.start source settings)).1 _ :=
    (Session.run_ensures hsound rfl).1
  have hfaultless := hworks.faultless
  have hends := Session.run_ends (Session.scan_ends (.inr (h.within (Nat.le_succ_of_le h.height_le)))) _
    (Session.start_governed source settings (.on {}))
  have hendless := hends.1
  revert hfaultless hendless
  generalize (Session.run g root (.start source settings)).1 = answer
  intro hfaultless hendless
  -- a fault and an endless scan are ruled out, which leaves the errors
  rcases answer with (e | f | _) | ⟨⟩
  · exact .inr ⟨e, rfl⟩
  · exact absurd rfl (hfaultless f)
  · exact absurd rfl (hendless _ rfl)
  · exact .inl rfl

theorem tokenize_of_root {root : StateId} (hroot : g.root = some root) (source : String)
    (settings : Settings) :
    g.tokenize source settings =
      (Session.run g root (.start source settings)).1.map fun _ =>
        let s := (Session.run g root (.start source settings)).2
        { source := s.scanner.source, tokens := s.tokens } := by
  unfold tokenize
  rw [hroot]
  rcases h : Session.run g root (.start source settings) with ⟨stop | ⟨⟩, s⟩ <;> simp only [h] <;> rfl

/-- **A grammar that is read back tokenizes alike.** Start a built grammar from a state that can
be written, and take the grammar that the text denotes. Over every source and with all settings
they answer the same error, or tokens of the same spans and names, and their sessions end at the
same place after the same number of steps. -/
theorem tokenize_ofText (hg : Built g) {root : StateId} {text : String}
    (htext : g.textOf root = .ok text) :
    ∃ h root', ofText text = .ok h ∧ h.root = some root' ∧ ∀ source settings,
      SameAnswer (TokenStream.SameTokens g h)
        ({ g with root := some root }.tokenize source settings) (h.tokenize source settings) ∧
      ((∃ stream, h.tokenize source settings = .ok stream) ∨
        ∃ e, h.tokenize source settings = .error (.error e)) ∧
      Session.EndsLike g h (Session.run { g with root := some root } root (.start source settings)).2
        (Session.run h root' (.start source settings)).2 := by
  obtain ⟨p, hp, rfl⟩ := (textOf_eq_ok_iff hg.proper).1 htext
  obtain ⟨h, root', hofText, hroot', hp'⟩ := ofText_text (hp.ordered hg.proper)
  refine ⟨h, root', hofText, hroot', fun source settings => ?_⟩
  have hrooted := hp.withRoot (some root)
  obtain ⟨hanswer, hends⟩ := Session.run_samePattern ⟨p, _, hrooted, hp'⟩ source settings
  have hstop := hp'.run_ends source settings
  refine ⟨?_, ?_, { hends with }⟩
  · rw [tokenize_of_root rfl, tokenize_of_root hroot', hanswer]
    rcases hstop with hok | ⟨e, he⟩
    · rw [hok]
      exact .ok ⟨hends.source, hends.tokens⟩
    · rw [he]
      exact .error _
  · rw [tokenize_of_root hroot']
    rcases hstop with hok | ⟨e, he⟩
    · rw [hok]
      exact .inl ⟨_, rfl⟩
    · rw [he]
      exact .inr ⟨e, rfl⟩

theorem tokenize_ofText_greeting :
    ∃ h root', ofText greetingText = .ok h ∧ h.root = some root' ∧ ∀ source settings,
      SameAnswer (TokenStream.SameTokens greeting h)
        ({ greeting with root := some ⟨1⟩ }.tokenize source settings)
        (h.tokenize source settings) ∧
      ((∃ stream, h.tokenize source settings = .ok stream) ∨
        ∃ e, h.tokenize source settings = .error (.error e)) ∧
      Session.EndsLike greeting h
        (Session.run { greeting with root := some ⟨1⟩ } ⟨1⟩ (.start source settings)).2
        (Session.run h root' (.start source settings)).2 :=
  tokenize_ofText (Built.empty.afterAll _) (by decide +kernel)

end Grammar

end Lexigraph
