/-
# Lexigraph.Proofs.Token.Tiling -- tokens that cover a stretch of a source

Tokens tile a stretch of a source when the first starts at its beginning, each starts where
the one before it ended, the last ends at its end, and none is empty. All their ends are
boundaries, so every token has a text, and the texts put together are the text of the
stretch (`Tiles.texts`).
-/

import Mathlib.Data.List.Chain
import Lexigraph.Token

namespace Lexigraph

/-- A token ends before another one begins, or where it does. -/
def Token.Before (t u : Token) : Prop := t.span.stop ≤ u.span.start

/-- A token lies in the text of another. -/
def Token.Within (t u : Token) : Prop :=
  u.span.start ≤ t.span.start ∧ t.span.stop ≤ u.span.stop

instance : DecidableRel Token.Before := fun _ _ => Nat.decLe ..

/-- The tokens cover the source from `start` to `stop`, in order, without gap or overlap. -/
def Tiles (source : Source) : Nat → List Token → Nat → Prop
  | start, [], stop => start = stop
  | start, t :: ts, stop =>
    t.span.start = start ∧ start < t.span.stop ∧ source.IsBoundary t.span.stop ∧
      Tiles source t.span.stop ts stop

namespace Tiles

variable {source : Source}

theorem append {a b c : Nat} {ts us : List Token} (hts : Tiles source a ts b)
    (hus : Tiles source b us c) : Tiles source a (ts ++ us) c := by
  induction ts generalizing a with
  | nil =>
    obtain rfl : a = b := hts
    exact hus
  | cons t ts ih =>
    obtain ⟨hstart, hlt, hstop, hrest⟩ := hts
    exact ⟨hstart, hlt, hstop, ih hrest⟩

/-- One token that is not empty. -/
theorem singleton {t : Token} (hlt : t.span.start < t.span.stop)
    (hstop : source.IsBoundary t.span.stop) :
    Tiles source t.span.start [t] t.span.stop :=
  ⟨rfl, hlt, hstop, rfl⟩

/-- Every token of a tiling that starts at a boundary lies between boundaries and is not
empty. -/
theorem mem {a b : Nat} {ts : List Token} (ha : source.IsBoundary a) (h : Tiles source a ts b) :
    ∀ t ∈ ts, t.span.start < t.span.stop ∧ source.IsBoundary t.span.start ∧
      source.IsBoundary t.span.stop := by
  induction ts generalizing a with
  | nil => simp
  | cons t ts ih =>
    obtain ⟨rfl, hlt, hstop, hrest⟩ := h
    intro u hu
    rcases List.mem_cons.1 hu with rfl | hu
    · exact ⟨hlt, ha, hstop⟩
    · exact ih hstop hrest u hu

/-- The ends of a stretch are in order, and all of its tokens lie between them. -/
theorem bounds {a b : Nat} {ts : List Token} (h : Tiles source a ts b) :
    a ≤ b ∧ ∀ t ∈ ts, a ≤ t.span.start ∧ t.span.stop ≤ b := by
  induction ts generalizing a with
  | nil => exact ⟨Nat.le_of_eq h, nofun⟩
  | cons t ts ih =>
    obtain ⟨rfl, hlt, -, hrest⟩ := h
    obtain ⟨hle, hin⟩ := ih hrest
    refine ⟨Nat.le_trans (Nat.le_of_lt hlt) hle, fun u hu => ?_⟩
    rcases List.mem_cons.1 hu with rfl | hu
    · exact ⟨Nat.le_refl _, hle⟩
    · exact ⟨Nat.le_trans (Nat.le_of_lt hlt) (hin u hu).1, (hin u hu).2⟩

theorem pairwise_before {a b : Nat} {ts : List Token} (h : Tiles source a ts b) :
    ts.Pairwise Token.Before := by
  induction ts generalizing a with
  | nil => exact .nil
  | cons t ts ih =>
    obtain ⟨-, -, -, hrest⟩ := h
    exact .cons (fun u hu => (hrest.bounds.2 u hu).1) (ih hrest)

/-- A tiling ends where it begins, or where one of its tokens ends. -/
theorem stop_eq {a b : Nat} {ts : List Token} (h : Tiles source a ts b) :
    b = a ∨ ∃ t ∈ ts, b = t.span.stop := by
  induction ts generalizing a with
  | nil => exact .inl h.symm
  | cons t ts ih =>
    obtain ⟨-, -, -, hrest⟩ := h
    rcases ih hrest with rfl | ⟨u, hu, rfl⟩
    · exact .inr ⟨t, List.mem_cons_self, rfl⟩
    · exact .inr ⟨u, List.mem_cons_of_mem _ hu, rfl⟩

/-- A token starts where its tiling begins, or where another token of it ends. -/
theorem start_eq {a b : Nat} {ts : List Token} (h : Tiles source a ts b) :
    ∀ t ∈ ts, t.span.start = a ∨ ∃ u ∈ ts, t.span.start = u.span.stop := by
  induction ts generalizing a with
  | nil => simp
  | cons t ts ih =>
    obtain ⟨hstart, -, -, hrest⟩ := h
    intro u hu
    rcases List.mem_cons.1 hu with rfl | hu
    · exact .inl hstart
    · rcases ih hrest u hu with hstart | ⟨v, hv, hstart⟩
      · exact .inr ⟨t, List.mem_cons_self, hstart⟩
      · exact .inr ⟨v, List.mem_cons_of_mem _ hv, hstart⟩

theorem head {a b : Nat} {ts : List Token} (h : Tiles source a ts b) :
    ∀ t ∈ ts.head?, t.span.start = a := by
  cases ts with
  | nil => simp
  | cons t ts =>
    intro u hu
    obtain rfl : t = u := by simpa using hu
    exact h.1

/-- Each token starts where the one before it ended. -/
theorem isChain {a b : Nat} {ts : List Token} (h : Tiles source a ts b) :
    ts.IsChain fun t u => u.span.start = t.span.stop := by
  induction ts generalizing a with
  | nil => exact .nil
  | cons t ts ih =>
    obtain ⟨-, -, -, hrest⟩ := h
    cases ts with
    | nil => exact .singleton t
    | cons u us => exact .cons_cons hrest.1 (ih hrest)

end Tiles

/-! ## The texts of a tiling -/

/-- A later boundary cuts the text that is left at an earlier one. -/
theorem Source.IsBoundary.split {source : Source} {before rest : List Char} {stop : Nat}
    (hchars : source.chars = before ++ rest) (hle : Text.size before ≤ stop)
    (hstop : source.IsBoundary stop) :
    ∃ text after, rest = text ++ after ∧ stop = Text.size before + Text.size text := by
  obtain ⟨upto, hupto, hsize⟩ := source.exists_eq_append_rest hstop
  have hbefore : before <+: source.chars := ⟨rest, hchars.symm⟩
  have hupto' : upto <+: source.chars := ⟨_, hupto.symm⟩
  rcases List.prefix_or_prefix_of_prefix hbefore hupto' with ⟨text, rfl⟩ | ⟨more, rfl⟩
  · refine ⟨text, source.rest stop hstop, ?_, ?_⟩
    · rw [hchars, List.append_assoc] at hupto
      exact List.append_cancel_left hupto
    · rw [← hsize, Text.size_append]
  · -- the two prefixes have the same size, so nothing lies between them
    rw [Text.size_append] at hle
    have hmore : more = [] := Text.size_eq_zero.1 (by omega)
    subst hmore
    exact ⟨[], rest, rfl, by simpa using hsize.symm⟩

theorem Span.slice?_append {source : Source} {before text after : List Char} {s : Span}
    (hchars : source.chars = before ++ text ++ after) (hstart : s.start = Text.size before)
    (hstop : s.stop = Text.size before + Text.size text) : s.slice? source = some text := by
  rw [Span.slice?_eq, hchars, hstart, hstop]
  exact Text.slice?_append before text after

/-- The texts of a tiling put together are the text that it covers. -/
theorem Tiles.texts {source : Source} {before rest : List Char} {stop : Nat} {ts : List Token}
    (hchars : source.chars = before ++ rest) (h : Tiles source (Text.size before) ts stop) :
    ∃ covered after, rest = covered ++ after ∧ stop = Text.size before + Text.size covered ∧
      (∀ t ∈ ts, (t.span.slice? source).isSome) ∧
      (ts.flatMap fun t => (t.span.slice? source).getD []) = covered := by
  induction ts generalizing before rest with
  | nil => exact ⟨[], rest, rfl, h.symm, by simp, rfl⟩
  | cons t ts ih =>
    obtain ⟨hstart, hlt, hstop, hrest⟩ := h
    obtain ⟨text, after, rfl, hsize⟩ := hstop.split hchars (Nat.le_of_lt hlt)
    have hslice : t.span.slice? source = some text :=
      Span.slice?_append (by rw [hchars, List.append_assoc]) hstart hsize
    have hchars' : source.chars = (before ++ text) ++ after := by
      rw [hchars, List.append_assoc]
    rw [hsize, ← Text.size_append] at hrest
    obtain ⟨covered, after', rfl, hstop', hsome, htexts⟩ := ih hchars' hrest
    refine ⟨text ++ covered, after', by rw [List.append_assoc], ?_, ?_, ?_⟩
    · rw [hstop', Text.size_append, Text.size_append, Nat.add_assoc]
    · intro u hu
      rcases List.mem_cons.1 hu with rfl | hu
      · rw [hslice]
        rfl
      · exact hsome u hu
    · rw [List.flatMap_cons, hslice, htexts]
      rfl

end Lexigraph
