import ClauseLearning.Proofs.Trail.Operations
import Mathlib.Algebra.Group.Nat.Defs

/-!
# The potential of the trail

A search undoes assignments, so the trail does not simply grow. What grows in lexicographic order is
the sequence of its lengths at the levels, since a jump to a level adds an assignment to it. The
*potential* counts the sequences that are still to come: a level that ends at a place of the trail
can be extended in as many ways as there are sequences beyond the place.

Assignments, decisions and jumps that assign a literal lower the potential. It is less than two to
the number of variables and one.
-/

set_option autoImplicit false

namespace ClauseLearning

/-- The number of nonempty ascending sequences of lengths beyond a place, among some variables. -/
def roomBeyond (n place : Nat) : Nat := 2 ^ (n - place) - 1

/-- A sequence goes on beyond the next place, or stops at it, or skips it. -/
theorem roomBeyond_eq {n place : Nat} (h : place < n) :
    roomBeyond n place = 2 * roomBeyond n (place + 1) + 1 := by
  have hsplit : n - place = (n - (place + 1)) + 1 := by omega
  have hpos : 0 < 2 ^ (n - (place + 1)) := Nat.two_pow_pos _
  unfold roomBeyond
  rw [hsplit, Nat.pow_succ]
  omega

/-- Further on there is less room. -/
theorem roomBeyond_le {n place next : Nat} (h : place ≤ next) :
    roomBeyond n next ≤ roomBeyond n place :=
  Nat.sub_le_sub_right (Nat.pow_le_pow_right Nat.two_pos (Nat.sub_le_sub_left h n)) 1

/-- The room beyond several places together. -/
def totalRoom (n : Nat) : List Nat → Nat
  | [] => 0
  | d :: ds => roomBeyond n d + totalRoom n ds

/-- A place more has its room added. -/
theorem totalRoom_cons (n d : Nat) (ds : List Nat) :
    totalRoom n (d :: ds) = roomBeyond n d + totalRoom n ds := rfl

/-- The rooms of two lists of places add up. -/
theorem totalRoom_append (n : Nat) (ds es : List Nat) :
    totalRoom n (ds ++ es) = totalRoom n ds + totalRoom n es := by
  induction ds with
  | nil => exact (Nat.zero_add _).symm
  | cons d ds ih =>
    rw [List.cons_append, totalRoom_cons, totalRoom_cons, ih, Nat.add_assoc]

/-- The room beyond ascending places, twice for the last one, is that beyond any earlier place. -/
theorem totalRoom_le {n len start : Nat} {ds : List Nat} (hascending : ds.Pairwise (· < ·))
    (hstart : ∀ d ∈ ds, start ≤ d) (hbounded : ∀ d ∈ ds, d < len) (hle : start ≤ len)
    (hlen : len ≤ n) : totalRoom n ds + 2 * roomBeyond n len ≤ 2 * roomBeyond n start := by
  induction ds generalizing start with
  | nil =>
    have hroom := roomBeyond_le (n := n) hle
    unfold totalRoom
    omega
  | cons d ds ih =>
    obtain ⟨hhead, htail⟩ := List.pairwise_cons.1 hascending
    have hd : d < len := hbounded d List.mem_cons_self
    have hrest : totalRoom n ds + 2 * roomBeyond n len ≤ 2 * roomBeyond n (d + 1) :=
      ih htail (fun e he => hhead e he) (fun e he => hbounded e (List.mem_cons_of_mem _ he)) hd
    have hsplit : roomBeyond n d = 2 * roomBeyond n (d + 1) + 1 :=
      roomBeyond_eq (Nat.lt_of_lt_of_le hd hlen)
    have hfirst := roomBeyond_le (n := n) (hstart d List.mem_cons_self)
    rw [totalRoom_cons]
    omega

namespace Trail

variable {t : Trail}

/-- The number of sequences of lengths that can still follow. -/
def potential (t : Trail) : Nat :=
  totalRoom t.numVariables t.delimiters + 2 * roomBeyond t.numVariables t.length

/-- The number of variables bounds the potential. -/
theorem WellFormed.potential_lt (h : t.WellFormed) :
    t.potential + 1 < 2 ^ (t.numVariables + 1) := by
  have hle := totalRoom_le h.ascending (fun d _ => Nat.zero_le d) h.bounded (Nat.zero_le _)
    h.length_le_numVariables
  have hpos : 0 < 2 ^ t.numVariables := Nat.two_pow_pos _
  unfold potential
  unfold roomBeyond at hle ⊢
  rw [Nat.pow_succ]
  rw [Nat.sub_zero] at hle
  omega

/-- The potential does not rise as long as no level is undone. -/
theorem potential_le {u : Trail} (hnum : u.numVariables = t.numVariables)
    (hdelimiters : u.delimiters = t.delimiters) (hlength : t.length ≤ u.length) :
    u.potential ≤ t.potential := by
  have hroom := roomBeyond_le (n := t.numVariables) hlength
  unfold potential
  rw [hnum, hdelimiters]
  omega

/-- A decision lowers the potential. -/
theorem potential_push_openLevel (h : t.length < t.numVariables) (l : Literal)
    (r : Option ClauseId) : (t.openLevel.push l r).potential < t.potential := by
  have hroom := roomBeyond_eq h
  have hlength : (t.openLevel.push l r).length = t.length + 1 := length_push _ _ _
  have hopened : totalRoom t.numVariables [t.length] = roomBeyond t.numVariables t.length :=
    Nat.add_zero _
  unfold potential
  rw [numVariables_push, delimiters_push, hlength, delimiters_openLevel, numVariables_openLevel,
    totalRoom_append, hopened]
  omega

/-- A jump to a lower level that assigns a literal there lowers the potential. -/
theorem WellFormed.potential_push_cut (h : t.WellFormed) {level : Nat}
    (hlevel : level < t.currentLevel) (l : Literal) (r : Option ClauseId) :
    ((t.cut level).push l r).potential < t.potential := by
  -- the level ends where the next one was opened
  have hlt : level < t.delimiters.length := hlevel
  obtain ⟨d, hd⟩ : ∃ d, t.delimiters[level]? = some d := ⟨_, List.getElem?_eq_getElem hlt⟩
  have hbounded : d < t.length := h.bounded d (List.mem_of_getElem? hd)
  have hcut : ((t.cut level).push l r).length = d + 1 := by
    rw [length_push, length_cut, lengthAt_eq, List.getD_eq_getElem?_getD, hd, Option.getD_some,
      Nat.min_eq_left (Nat.le_of_lt hbounded)]
  have hroom := roomBeyond_eq (Nat.lt_of_lt_of_le hbounded h.length_le_numVariables)
  have hsplit : t.delimiters = t.delimiters.take level ++ d :: t.delimiters.drop (level + 1) := by
    have hdrop := List.drop_eq_getElem_cons hlt
    rw [List.getElem?_eq_getElem hlt] at hd
    rw [← Option.some.inj hd, ← hdrop, List.take_append_drop]
  unfold potential
  rw [numVariables_push, delimiters_push, hcut, delimiters_cut, numVariables_cut]
  conv_rhs => rw [hsplit]
  rw [totalRoom_append, totalRoom_cons]
  omega

end Trail

end ClauseLearning
