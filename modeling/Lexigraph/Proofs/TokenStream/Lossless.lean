/-
# Lexigraph.Proofs.TokenStream.Lossless -- tokens cover the source

A run scans its root until nothing is left, so the tokens of a run tile the source from its
beginning on. Text that no token covers can only be at the end. It is there if a repetition
without a token was the last thing that matched, or if one that fell short kept its
position; if there are no such repetitions, the tokens cover the whole source
(`tokenize_lossless`).
-/

import Lexigraph.Proofs.Session.Run
import Lexigraph.Proofs.Session.Settled
import Lexigraph.TokenStream

namespace Lexigraph

namespace Session

open Attempt (Ensures)

variable {g : Grammar} {s t : Session} {root : StateId}

/-! ## Runs -/

/-- Passes over a root whose repetitions all have tokens leave nothing pending. -/
theorem passes_rests (fuel : Nat) (hroot : g.graph.Tokened root) (hs : AtRest g s) :
    Ensures (passes g root fuel) s (Rests g) := by
  induction fuel generalizing s with
  | zero => exact Ensures.pure (.ok hs _)
  | succ fuel ih =>
    unfold passes
    refine Ensures.get_bind ?_
    by_cases hend : s.atEnd = true
    · rw [if_pos hend]
      exact Ensures.pure (.ok hs _)
    rw [if_neg hend]
    refine Ensures.get_bind ?_
    refine (scan_rests root s hroot hs).bind (fun e _ _ => .stop e) fun found t ht => ?_
    have hrest : AtRest g t := ht found rfl
    refine (checkMoved_ensures hrest.sound _).bind (fun e _ _ => .stop e) ?_
    rintro _ t ⟨-, rfl, -⟩
    exact ih hrest

theorem run_rests (hroot : g.graph.Tokened root) (hs : AtRest g s) (houter : s.outer = []) :
    Ensures (run g root) s (Rests g) := by
  refine Ensures.get_bind ?_
  refine ((passes_ensures _ hs.sound (Nat.le_refl _)).and (passes_rests _ hroot hs)).bind
    (fun e _ _ => .stop e) ?_
  rintro _ t ⟨⟨hworks, -⟩, ht⟩
  have htouter : t.outer = [] := hworks.covers.outer.trans houter
  unfold Ensures
  rw [checkBalanced_apply hworks.sound htouter]
  exact .ok (ht _ rfl) _

theorem tokens_of_outer_nil (h : s.outer = []) : s.tokens = s.active.tokens := by
  unfold Session.tokens rootFrame
  rw [h]
  rfl

/-- The tokens of a run tile the source up to where the text begins that is still uncovered. -/
theorem run_tiles {source : String} {settings : Settings}
    (hrun : run g root (.start source settings) = (.ok ⟨⟩, s)) :
    s.scanner.source = .ofString source ∧
      Tiles (.ofString source) 0 s.tokens.toList s.active.start := by
  have hstart : Sound g (.start source settings) := start_sound source settings _ Memo.coherent_empty
  obtain ⟨⟨-, hcovers, -⟩, -⟩ := (run_ensures hstart rfl).of_eq hrun
  obtain ⟨new, hnew, htiles, -⟩ := hcovers.tokens
  have htokens : s.tokens.toList = new := by
    rw [tokens_of_outer_nil hcovers.outer, hnew]
    rfl
  rw [htokens]
  exact ⟨hcovers.source, htiles⟩

/-- Where scans leave nothing pending, a run covers everything. -/
theorem run_covers_all {source : String} {settings : Settings}
    (hrun : run g root (.start source settings) = (.ok ⟨⟩, s))
    (hrewind : settings.shortfall = .rewind) (hroot : g.graph.Tokened root) :
    Text.size source.toList ≤ s.active.start := by
  have hstart : Sound g (.start source settings) := start_sound source settings _ Memo.coherent_empty
  obtain ⟨⟨hsound, hcovers, -⟩, hend⟩ := (run_ensures hstart rfl).of_eq hrun
  have hrests := (run_rests hroot ⟨hstart, hrewind, rfl⟩ rfl).of_eq hrun
  have hleft : s.scanner.source.size ≤ s.scanner.position := of_decide_eq_true (hend rfl)
  have hsize : s.scanner.source.size = Text.size source.toList := by
    rw [hcovers.source, Source.size_eq]
    rfl
  rw [(hrests _ rfl).settled, ← hsound.synced, ← hsize]
  exact hleft

end Session

/-! ## Token streams -/

namespace TokenStream

/-- What it says of a stream that its tokens tile its source from the beginning on. -/
theorem lossless_of_tiles {stream : TokenStream} {stop : Nat}
    (h : Tiles stream.source 0 stream.tokens.toList stop) :
    (∀ t ∈ stream.tokens.toList, t.span.start < t.span.stop ∧
      stream.source.IsBoundary t.span.start ∧ stream.source.IsBoundary t.span.stop ∧
      (t.span.slice? stream.source).isSome) ∧
    ∃ after, stream.source.chars = stream.texts.flatMap Prod.snd ++ after ∧
      stop = Text.size (stream.texts.flatMap Prod.snd) := by
  have hnil : stream.source.chars = [] ++ stream.source.chars := rfl
  obtain ⟨covered, after, hchars, hstop, hsome, htexts⟩ := Tiles.texts hnil h
  have hcovered : stream.texts.flatMap Prod.snd = covered := by
    rw [← htexts]
    unfold TokenStream.texts
    rw [List.flatMap_map]
    rfl
  refine ⟨fun t ht => ?_, after, ?_, ?_⟩
  · obtain ⟨hlt, hfirst, hlast⟩ := h.mem stream.source.isBoundary_zero t ht
    exact ⟨hlt, hfirst, hlast, hsome t ht⟩
  · rw [hcovered, hchars]
  · rw [hcovered, hstop, Text.size_nil, Nat.zero_add]

end TokenStream

namespace Grammar

theorem tokenize_eq_ok {g : Grammar} {source : String} {settings : Settings} {stream : TokenStream}
    (h : g.tokenize source settings = .ok stream) :
    ∃ root s, g.root = some root ∧ Session.run g root (.start source settings) = (.ok ⟨⟩, s) ∧
      stream = { source := s.scanner.source, tokens := s.tokens } := by
  unfold tokenize at h
  cases hroot : g.root with
  | none =>
    rw [hroot] at h
    cases h
  | some root =>
    rw [hroot] at h
    simp only at h
    rcases hrun : Session.run g root (.start source settings) with ⟨answer, s⟩
    rw [hrun] at h
    cases answer with
    | error e => cases h
    | ok u =>
      cases h
      exact ⟨root, s, rfl, hrun, rfl⟩

/-- **Tokenizing loses nothing.** The tokens are not empty and lie between boundaries, so each
has a text. They start at the beginning of the source and follow one another without gap or
overlap, so their texts put together begin the source. They are all of it where repetitions
go back when they fall short and all that the root reaches have tokens. -/
theorem tokenize_lossless {g : Grammar} {source : String} {settings : Settings}
    {stream : TokenStream} (h : g.tokenize source settings = .ok stream) :
    stream.source = .ofString source ∧
    (∀ t ∈ stream.tokens.toList, t.span.start < t.span.stop ∧
      stream.source.IsBoundary t.span.start ∧ stream.source.IsBoundary t.span.stop ∧
      (t.span.slice? stream.source).isSome) ∧
    (∀ t ∈ stream.tokens.toList.head?, t.span.start = 0) ∧
    (stream.tokens.toList.IsChain fun t u => u.span.start = t.span.stop) ∧
    (stream.texts.flatMap Prod.snd) <+: source.toList ∧
    (settings.shortfall = .rewind → (∀ root ∈ g.root, g.graph.Tokened root) →
      stream.texts.flatMap Prod.snd = source.toList) := by
  obtain ⟨root, s, hroot, hrun, hstream⟩ := tokenize_eq_ok h
  obtain ⟨hsource, htiles⟩ := Session.run_tiles hrun
  have hsource' : stream.source = .ofString source := by rw [hstream, hsource]
  have htiles' : Tiles stream.source 0 stream.tokens.toList s.active.start := by
    rw [hsource', hstream]
    exact htiles
  obtain ⟨htokens, after, hchars, hstop⟩ := TokenStream.lossless_of_tiles htiles'
  have hwhole : source.toList = stream.texts.flatMap Prod.snd ++ after := by
    rw [← hchars, hsource']
    rfl
  refine ⟨hsource', htokens, htiles'.head, htiles'.isChain, ?_, fun hrewind htokened => ?_⟩
  · rw [hwhole]
    exact List.prefix_append _ _
  · have hall := Session.run_covers_all hrun hrewind (htokened root hroot)
    rw [hwhole, Text.size_append, hstop] at hall
    -- what is uncovered has no bytes
    have hafter : after = [] := Text.size_eq_zero.1 (by omega)
    rw [hwhole, hafter, List.append_nil]

/-- One `x` after another, as one token. -/
def exes : Grammar where
  tokens := { names := #["x", "exes"], distinct := by decide }
  rules := { rules := #[{ token := ⟨0⟩, choices := { first := "x" } }] }
  graph := { nodes := #[
    { kind := .terminal ⟨0⟩ },
    { kind := .repetition ⟨0⟩ 1 none, token := some ⟨1⟩ }] }
  root := some ⟨1⟩

theorem exes_tokened : ∀ root ∈ exes.root, exes.graph.Tokened root := by
  intro root _ id node _ hnode hchild
  have hmem : node ∈ exes.graph.nodes.toList :=
    Array.mem_toList_iff.2 (Array.mem_of_getElem? hnode)
  have hall : ∀ n ∈ exes.graph.nodes.toList, n.child?.isSome → n.token.isSome := by decide
  exact hall node hmem hchild

theorem tokenize_lossless_exes :
    exes.tokenize "xx" = .ok { source := .ofString "xx", tokens := #[⟨⟨1⟩, 0, 2⟩] } ∧
      ({ source := .ofString "xx", tokens := #[⟨⟨1⟩, 0, 2⟩] : TokenStream }.texts.flatMap
        Prod.snd) = "xx".toList := by
  have h : exes.tokenize "xx" = .ok { source := .ofString "xx", tokens := #[⟨⟨1⟩, 0, 2⟩] } := by
    decide +kernel
  exact ⟨h, (tokenize_lossless h).2.2.2.2.2 rfl exes_tokened⟩

end Grammar

end Lexigraph
