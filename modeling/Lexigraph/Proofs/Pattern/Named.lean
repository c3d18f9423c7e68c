/-
# Lexigraph.Proofs.Pattern.Named -- what a text says of annotations

Nothing is written of flags without a name, so the text of a pattern is that of the pattern
without them, up to blanks: one more for each set that holds nothing else
(`length_text`). Hence the two texts are the same exactly if there is no such set
(`text_named_eq_iff`). And what a text is read as has no such flags at all
(`named_pattern`).
-/

import Lexigraph.Pattern.Printer
import Lexigraph.Proofs.Pattern.Height
import Lexigraph.Proofs.Pattern.Phrase

namespace Lexigraph

namespace Annotations

/-- The set without the flags that have no name. -/
def named (a : Annotations) : Annotations := { a with unnamed := 0 }

/-- Is there something in the set, and nothing to write of it? -/
def wordless (a : Annotations) : Bool := a.members.isEmpty && !a.isEmpty

theorem named_eq_self_iff {a : Annotations} : a.named = a ↔ a.unnamed = 0 :=
  ⟨fun h => (congrArg unnamed h).symm, fun h => by rw [named, ← h]⟩

/-- Nothing is written of a set exactly if it is empty without the flags that have no name. -/
theorem isEmpty_named (a : Annotations) : a.named.isEmpty = a.members.isEmpty := by
  rw [Bool.eq_iff_iff]
  unfold isEmpty members
  show (a.flags.isEmpty && true && a.error.isNone) = true ↔ _
  rw [Bool.and_true, Bool.and_eq_true, List.isEmpty_iff, Option.isNone_iff_eq_none,
    List.isEmpty_iff, List.append_eq_nil_iff, List.map_eq_nil_iff, List.map_eq_nil_iff,
    Option.toList_eq_nil_iff]

/-- An empty set has no members. -/
theorem members_isEmpty {a : Annotations} (h : a.isEmpty = true) : a.members.isEmpty = true := by
  unfold isEmpty at h
  rw [Bool.and_eq_true, Bool.and_eq_true] at h
  rw [← isEmpty_named]
  show (a.flags.isEmpty && true && a.error.isNone) = true
  rw [h.1.1, h.2]
  rfl

/-- Flags without a name show only where there is nothing else, and then as a blank. -/
theorem lead_eq_append (a : Annotations) :
    a.lead = (if a.wordless then [' '] else []) ++ a.named.lead := by
  unfold wordless
  cases hmembers : a.members.isEmpty with
  | true =>
    rw [show a.named.lead = [] from if_pos (a.isEmpty_named.trans hmembers), List.append_nil]
    have htext : a.text = [] := by rw [text, List.isEmpty_iff.1 hmembers]; rfl
    unfold lead
    cases a.isEmpty with
    | true => rfl
    | false =>
      rw [htext]
      rfl
  | false =>
    have hnamed : a.named.isEmpty = false := a.isEmpty_named.trans hmembers
    have hempty : a.isEmpty = false := by
      rw [← Bool.not_eq_true]
      intro h
      rw [members_isEmpty h] at hmembers
      cases hmembers
    unfold lead
    rw [hempty, hnamed]
    rfl

/-- A set with something to write is written without the flags that have no name. -/
theorem lead_named {a : Annotations} (h : a.wordless = false) : a.named.lead = a.lead := by
  rw [a.lead_eq_append, h]
  rfl

theorem length_lead (a : Annotations) :
    a.lead.length = a.named.lead.length + if a.wordless then 1 else 0 := by
  rw [a.lead_eq_append, List.length_append, Nat.add_comm]
  cases a.wordless <;> rfl

end Annotations

namespace Pattern

/-! ## The annotations of a pattern -/

mutual

/-- The pattern with other annotations in place of each set. -/
def mapAnnotations (f : Annotations → Annotations) (p : Pattern) : Pattern :=
  match p with
  | .terminal annotations choices token branches =>
    .terminal (f annotations) choices token (mapAnnotationsAll f branches)
  | .repetition annotations child min max token branches =>
    .repetition (f annotations) (mapAnnotations f child) min max token
      (mapAnnotationsAll f branches)
  | .choice annotations token branches =>
    .choice (f annotations) token (mapAnnotationsAll f branches)

/-- Patterns with other annotations in place of each set. -/
def mapAnnotationsAll (f : Annotations → Annotations) (ps : List Pattern) : List Pattern :=
  match ps with
  | [] => []
  | p :: ps => mapAnnotations f p :: mapAnnotationsAll f ps

end

/-- The pattern without the flags that have no name. -/
def named (p : Pattern) : Pattern := p.mapAnnotations Annotations.named

mutual

/-- The annotations in a pattern, empty or not, in the order in which they are written. -/
def annotationSets (p : Pattern) : List Annotations :=
  match p with
  | .terminal annotations _ _ branches => annotations :: annotationSetsAll branches
  | .repetition annotations child _ _ _ branches =>
    annotations :: (annotationSets child ++ annotationSetsAll branches)
  | .choice annotations _ branches => annotations :: annotationSetsAll branches

/-- The annotations in some patterns. -/
def annotationSetsAll (ps : List Pattern) : List Annotations :=
  match ps with
  | [] => []
  | p :: ps => annotationSets p ++ annotationSetsAll ps

end

mutual

/-- A pattern stays as it is exactly if each of its annotations does. -/
theorem mapAnnotations_eq_self_iff (f : Annotations → Annotations) (p : Pattern) :
    p.mapAnnotations f = p ↔ ∀ a ∈ p.annotationSets, f a = a := by
  match p with
  | .terminal annotations choices token branches =>
    simp [mapAnnotations, annotationSets, mapAnnotationsAll_eq_self_iff f branches]
  | .repetition annotations child min max token branches =>
    simp [mapAnnotations, annotationSets, mapAnnotations_eq_self_iff f child,
      mapAnnotationsAll_eq_self_iff f branches, or_imp, forall_and]
  | .choice annotations token branches =>
    simp [mapAnnotations, annotationSets, mapAnnotationsAll_eq_self_iff f branches]

theorem mapAnnotationsAll_eq_self_iff (f : Annotations → Annotations) (ps : List Pattern) :
    mapAnnotationsAll f ps = ps ↔ ∀ a ∈ annotationSetsAll ps, f a = a := by
  match ps with
  | [] => simp [mapAnnotationsAll, annotationSetsAll]
  | p :: ps =>
    simp [mapAnnotationsAll, annotationSetsAll, mapAnnotations_eq_self_iff f p,
      mapAnnotationsAll_eq_self_iff f ps, or_imp, forall_and]

end

/-- Nothing is lost exactly if all flags have names. -/
theorem named_eq_self_iff {p : Pattern} : p.named = p ↔ ∀ a ∈ p.annotationSets, a.unnamed = 0 := by
  simp only [named, mapAnnotations_eq_self_iff, Annotations.named_eq_self_iff]

mutual

/-- Annotations do not count for the height. -/
theorem height_mapAnnotations (f : Annotations → Annotations) (p : Pattern) :
    (p.mapAnnotations f).height = p.height := by
  match p with
  | .terminal annotations choices token branches =>
    rw [mapAnnotations, height, height, heightAll_mapAnnotationsAll f branches]
  | .repetition annotations child min max token branches =>
    rw [mapAnnotations, height, height, height_mapAnnotations f child,
      heightAll_mapAnnotationsAll f branches]
  | .choice annotations token branches =>
    rw [mapAnnotations, height, height, heightAll_mapAnnotationsAll f branches]

theorem heightAll_mapAnnotationsAll (f : Annotations → Annotations) (ps : List Pattern) :
    heightAll (mapAnnotationsAll f ps) = heightAll ps := by
  match ps with
  | [] => rfl
  | p :: ps =>
    rw [mapAnnotationsAll, heightAll, heightAll, height_mapAnnotations f p,
      heightAll_mapAnnotationsAll f ps]

end

theorem named_withBranches (p : Pattern) (ps : List Pattern) :
    (p.withBranches ps).named = p.named.withBranches (mapAnnotationsAll Annotations.named ps) := by
  cases p <;> rfl

/-! ## Their texts -/

mutual

/-- Where each set has something to write, or nothing in it, nothing changes. -/
theorem write_named (depth : Nat) (p : Pattern) (rest : List Char)
    (h : ∀ a ∈ p.annotationSets, a.wordless = false) :
    write depth p.named rest = write depth p rest := by
  match p with
  | .terminal annotations choices token branches =>
    obtain ⟨ha, hbranches⟩ := List.forall_mem_cons.1 h
    show annotations.named.lead ++ _ = annotations.lead ++ _
    rw [Annotations.lead_named ha, writeBranches_named depth branches rest hbranches]
  | .repetition annotations child min max token branches =>
    obtain ⟨ha, hmore⟩ := List.forall_mem_cons.1 h
    obtain ⟨hchild, hbranches⟩ := List.forall_mem_append.1 hmore
    show annotations.named.lead ++ '(' :: write (depth + 1) child.named _ =
      annotations.lead ++ '(' :: write (depth + 1) child _
    rw [Annotations.lead_named ha, write_named (depth + 1) child _ hchild,
      writeBranches_named depth branches rest hbranches]
  | .choice annotations token branches =>
    obtain ⟨ha, hbranches⟩ := List.forall_mem_cons.1 h
    show annotations.named.lead ++ _ = annotations.lead ++ _
    rw [Annotations.lead_named ha, writeBranches_named depth branches rest hbranches]

theorem writeBranches_named (depth : Nat) (ps : List Pattern) (rest : List Char)
    (h : ∀ a ∈ annotationSetsAll ps, a.wordless = false) :
    writeBranches depth (mapAnnotationsAll Annotations.named ps) rest =
      writeBranches depth ps rest := by
  match ps with
  | [] => rfl
  | [p] =>
    obtain ⟨hp, -⟩ := List.forall_mem_append.1 h
    exact congrArg ('.' :: ·) (write_named depth p rest hp)
  | p :: q :: ps =>
    obtain ⟨hp, hmore⟩ := List.forall_mem_append.1 h
    show '.' :: '{' :: (newLine (depth + 1) ++ write (depth + 1) p.named
      (writeMore depth (mapAnnotationsAll Annotations.named (q :: ps)) rest)) = _
    rw [writeMore_named depth (q :: ps) rest hmore, write_named (depth + 1) p _ hp]
    rfl

theorem writeMore_named (depth : Nat) (ps : List Pattern) (rest : List Char)
    (h : ∀ a ∈ annotationSetsAll ps, a.wordless = false) :
    writeMore depth (mapAnnotationsAll Annotations.named ps) rest = writeMore depth ps rest := by
  match ps with
  | [] => rfl
  | p :: ps =>
    obtain ⟨hp, hmore⟩ := List.forall_mem_append.1 h
    show ',' :: (newLine (depth + 1) ++ write (depth + 1) p.named
      (writeMore depth (mapAnnotationsAll Annotations.named ps) rest)) = _
    rw [writeMore_named depth ps rest hmore, write_named (depth + 1) p _ hp]
    rfl

end

mutual

/-- Each set with nothing to write makes a text one blank longer. What follows the two texts may
differ, since it differs inside of them. -/
theorem length_write (depth : Nat) (p : Pattern) (rest rest' : List Char) :
    (write depth p rest).length + rest'.length = (write depth p.named rest').length +
      p.annotationSets.countP Annotations.wordless + rest.length := by
  match p with
  | .terminal annotations choices token branches =>
    have hbranches := length_writeBranches depth branches rest rest'
    rw [named, mapAnnotations, write, write, annotationSets, List.countP_cons]
    simp only [List.length_append, annotations.length_lead]
    omega
  | .repetition annotations child min max token branches =>
    have hbranches := length_writeBranches depth branches rest rest'
    have hchild := length_write (depth + 1) child
      (boundsText min max ++ ')' :: (tokenText token ++ writeBranches depth branches rest))
      (boundsText min max ++ ')' :: (tokenText token ++
        writeBranches depth (mapAnnotationsAll Annotations.named branches) rest'))
    rw [named, mapAnnotations, write, write, annotationSets, List.countP_cons, List.countP_append]
    simp only [List.length_append, List.length_cons, annotations.length_lead] at hchild ⊢
    rw [named] at hchild
    omega
  | .choice annotations token branches =>
    have hbranches := length_writeBranches depth branches rest rest'
    rw [named, mapAnnotations, write, write, annotationSets, List.countP_cons]
    simp only [List.length_append, List.length_cons, annotations.length_lead]
    omega

theorem length_writeBranches (depth : Nat) (ps : List Pattern) (rest rest' : List Char) :
    (writeBranches depth ps rest).length + rest'.length =
      (writeBranches depth (mapAnnotationsAll Annotations.named ps) rest').length +
        (annotationSetsAll ps).countP Annotations.wordless + rest.length := by
  match ps with
  | [] => exact Nat.add_comm _ _
  | [p] =>
    have hp := length_write depth p rest rest'
    rw [named] at hp
    simp only [mapAnnotationsAll, writeBranches, annotationSetsAll, List.append_nil,
      List.length_cons]
    omega
  | p :: q :: ps =>
    have hmore := length_writeMore depth (q :: ps) rest rest'
    have hp := length_write (depth + 1) p (writeMore depth (q :: ps) rest)
      (writeMore depth (mapAnnotationsAll Annotations.named (q :: ps)) rest')
    rw [named] at hp
    rw [annotationSetsAll, List.countP_append]
    rw [mapAnnotationsAll] at hmore hp ⊢
    simp only [mapAnnotationsAll, writeBranches, List.length_append, List.length_cons] at hmore hp ⊢
    omega

theorem length_writeMore (depth : Nat) (ps : List Pattern) (rest rest' : List Char) :
    (writeMore depth ps rest).length + rest'.length =
      (writeMore depth (mapAnnotationsAll Annotations.named ps) rest').length +
        (annotationSetsAll ps).countP Annotations.wordless + rest.length := by
  match ps with
  | [] =>
    simp only [mapAnnotationsAll, writeMore, annotationSetsAll, List.length_append,
      List.length_cons, List.countP_nil]
    omega
  | p :: ps =>
    have hmore := length_writeMore depth ps rest rest'
    have hp := length_write (depth + 1) p (writeMore depth ps rest)
      (writeMore depth (mapAnnotationsAll Annotations.named ps) rest')
    rw [named] at hp
    simp only [mapAnnotationsAll, writeMore, annotationSetsAll, List.length_append,
      List.length_cons, List.countP_append]
    omega

end

theorem length_text (p : Pattern) :
    p.text.length = p.named.text.length + p.annotationSets.countP Annotations.wordless :=
  length_write 0 p [] []

/-- **Flags without a name show in a text** exactly where a set holds nothing else. -/
theorem text_named_eq_iff {p : Pattern} :
    p.named.text = p.text ↔ ∀ a ∈ p.annotationSets, a.wordless = false := by
  constructor
  · intro h
    have hcount : p.annotationSets.countP Annotations.wordless = 0 := by
      have hlength := p.length_text
      rw [h] at hlength
      omega
    simpa using hcount
  · exact fun h => write_named 0 p [] h

end Pattern

/-! ## Patterns that are read -/

namespace Phrase

open Pattern (mapAnnotations mapAnnotationsAll)

/-- Every mark has a name. -/
theorem unnamed_foldl_add (marks : List Mark) (found : Annotations) :
    (marks.foldl Mark.add found).unnamed = found.unnamed := by
  induction marks generalizing found with
  | nil => rfl
  | cons mark marks ih =>
    rw [List.foldl_cons, ih]
    rcases mark with f | message
    · cases f <;> rfl
    · rfl

mutual

/-- What a derivation tree stands for has flags with names only. -/
theorem named_pattern (t : Phrase) : t.pattern.named = t.pattern := by
  match t with
  | mk marks body next =>
    rw [pattern, Pattern.named_withBranches, Next.named_patterns next,
      Body.named_pattern _ (unnamed_foldl_add marks {}) body]

theorem Body.named_pattern (annotations : Annotations) (h : annotations.unnamed = 0)
    (body : Body) : (body.pattern annotations).named = body.pattern annotations := by
  have hnamed : annotations.named = annotations := Annotations.named_eq_self_iff.2 h
  match body with
  | .terminal first others token => rw [Body.pattern, Pattern.named, mapAnnotations, hnamed]; rfl
  | .repetition child bounds _ token =>
    have hchild := Phrase.named_pattern child
    rw [Pattern.named] at hchild
    rw [Body.pattern, Pattern.named, mapAnnotations, hnamed, hchild]
    rfl
  | .choice token => rw [Body.pattern, Pattern.named, mapAnnotations, hnamed]; rfl

theorem Next.named_patterns (next : Next) :
    mapAnnotationsAll Annotations.named next.patterns = next.patterns := by
  match next with
  | .none => rfl
  | .one p => exact congrArg (fun q => [q]) (Phrase.named_pattern p)
  | .list p ps => exact congrArg₂ List.cons (Phrase.named_pattern p) (named_patternAll ps)

theorem named_patternAll (ps : List Phrase) :
    mapAnnotationsAll Annotations.named (patternAll ps) = patternAll ps := by
  match ps with
  | [] => rfl
  | p :: ps => exact congrArg₂ List.cons (Phrase.named_pattern p) (named_patternAll ps)

end

end Phrase

end Lexigraph
