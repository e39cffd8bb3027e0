import Mathlib.Order.Bounds.Defs
import MiniJava.Proofs.Emission.Labels

/-!
# Replays of emitted code

A replay follows the ways through emitted code and counts the words on the stack by what each
instruction pops and pushes. It begins at the first instruction. Behind a return or a jump the stack
is empty, and the replay begins there too: no way may lead there but from a label, or none at all.

Balanced code has one depth at each of its places, found by going over the text once. Every replay
meets that depth, and the greatest one is what emission has counted.
-/

namespace MiniJava.Jvm

/-! ## Replays -/

/-- What an instruction makes of the number of words on the stack. -/
def Instr.replay (i : Instr) (depth : Nat) : Nat :=
  depth - i.pops + i.pushes

/-- Where a replay begins, with an empty stack. -/
def Entered (code : List Instr) (n depth : Nat) : Prop :=
  depth = 0 ∧ (n = 0 ∨ ∃ m i, n = m + 1 ∧ code[m]? = some i ∧ Control.falls i = false)

/-- A replay meets a place with a number of words on the stack. -/
abbrev Replay (code : List Instr) : Nat → Nat → Prop :=
  Path Instr.replay (Entered code) code

/-- A path from the first instruction meets a place with a number of words on the stack. -/
abbrev Reaches (code : List Instr) : Nat → Nat → Prop :=
  Path Instr.replay (FromStart 0) code

theorem Reaches.replay {code : List Instr} {n d : Nat} (h : Reaches code n d) : Replay code n d := by
  induction h with
  | start h => exact .start ⟨h.2, .inl h.1⟩
  | next _ hi hleads ih => exact .next ih hi hleads

/-! ## Depths in a text -/

/-- The depth behind an instruction in the text. -/
def Instr.depthBehind (d : Nat) (i : Instr) : Nat :=
  if Control.falls i then i.replay d else 0

/-- The depth at a place of a text. -/
def depthAt (d : Nat) (code : List Instr) (n : Nat) : Nat :=
  (code.take n).foldl Instr.depthBehind d

/-- The greatest depth in a text. -/
def greatestDepth : Nat → List Instr → Nat
  | d, [] => d
  | d, i :: rest => max d (greatestDepth (i.depthBehind d) rest)

/-- The depth at a label: behind a comparison its result is on the stack. -/
def labelDepth : Label → Nat
  | .numbered .compareEnd _ => 1
  | _ => 0

/-- An instruction finds the words that it pops, and labels have their depths. -/
structure FitsDepth (d : Nat) (i : Instr) : Prop where
  pops : i.pops ≤ d
  marks : ∀ l, Control.marks? i = some l → d = labelDepth l
  jumps : ∀ l, Control.jumps? i = some l → i.replay d = labelDepth l

/-- Every instruction of a text fits the depth at its place, and behind the text there is another
depth. -/
inductive Scanned : Nat → List Instr → Nat → Prop
  | nil {d : Nat} : Scanned d [] d
  | cons {d e : Nat} {i : Instr} {rest : List Instr} (hi : FitsDepth d i)
    (hrest : Scanned (i.depthBehind d) rest e) : Scanned d (i :: rest) e

theorem FitsDepth.straight {d : Nat} {i : Instr} (hi : i.isStraight) (hpops : i.pops ≤ d) :
    FitsDepth d i := by
  refine ⟨hpops, fun l hl => ?_, fun l hl => ?_⟩
  · cases (marks_of_straight hi).symm.trans hl
  · cases (jumps_of_straight hi).symm.trans hl

theorem labelDepth_plain {l : Label} (h : PlainLabel l) : labelDepth l = 0 := by
  cases l with
  | named => rfl
  | numbered role n =>
    cases role with
    | compareEnd => exact h.elim
    | _ => rfl

theorem depthBehind_straight {d : Nat} {i : Instr} (hi : i.isStraight) :
    i.depthBehind d = d - i.pops + i.pushes :=
  if_pos (falls_of_straight hi)

theorem depthBehind_jump {i : Instr} {l : Label} (hi : i.jumpTarget? = some l) :
    i.depthBehind i.pops = 0 ∧ i.replay i.pops = 0 := by
  cases i with
  | goto | ifLess | ifTrue => exact ⟨rfl, rfl⟩
  | _ => cases hi

theorem load_words {i : Instr} (h : i.isLoad) : i.pops = 0 ∧ i.pushes = 1 := by
  cases i with
  | push | load => exact ⟨rfl, rfl⟩
  | _ => cases h

theorem Scanned.load {d e : Nat} {i : Instr} {rest : List Instr} (hi : i.isLoad)
    (h : Scanned (d + 1) rest e) : Scanned d (i :: rest) e := by
  obtain ⟨hpops, hpushes⟩ := load_words hi
  refine .cons (.straight (isLoad_straight hi) (hpops ▸ Nat.zero_le d)) ?_
  rwa [depthBehind_straight (isLoad_straight hi), hpops, hpushes]

theorem Balanced.scanned {d e : Nat} {code : List Instr} (h : Balanced d code e) :
    Scanned d code e := by
  induction h with
  | nil => exact .nil
  | straight hi hpops _ ih =>
    refine .cons (.straight hi hpops) ?_
    rwa [depthBehind_straight hi]
  | @label _ l _ hl _ ih =>
    refine .cons ⟨Nat.le_refl 0, fun l' hl' => ?_, fun l' hl' => by cases hl'⟩ ih
    cases hl'
    exact (labelDepth_plain hl).symm
  | @jump _ _ i l _ hi hl hpops _ ih =>
    subst hpops
    obtain ⟨hbehind, hreplay⟩ := depthBehind_jump hi
    refine .cons ⟨Nat.le_refl _, fun l' hl' => ?_, fun l' hl' => ?_⟩ (hbehind ▸ ih)
    · cases (marks_of_jump hi).symm.trans hl'
    · cases hi.symm.trans hl'
      rw [hreplay, labelDepth_plain hl]
  | ret hpops _ ih =>
    exact .cons ⟨hpops, (fun _ hl => nomatch hl), (fun _ hl => nomatch hl)⟩ ih
  | less hi hj _ ih =>
    refine .load hi (.load hj (.cons ⟨Nat.le_refl 2, nofun, ?_⟩ (.load rfl
      (.cons ⟨Nat.zero_le 1, nofun, ?_⟩ (.cons ⟨Nat.le_refl 0, ?_, nofun⟩ (.load rfl
        (.cons ⟨Nat.zero_le 1, ?_, nofun⟩ ih)))))))
    all_goals
      rintro _ ⟨⟩
      rfl

variable {d e p : Nat} {code : List Instr}

theorem Scanned.text (h : Scanned d code e) :
    MiniJava.Scanned FitsDepth Instr.depthBehind d code e := by
  induction h with
  | nil => exact .nil
  | cons hfits _ ih => exact .cons hfits ih

theorem Scanned.last (h : Scanned d code e) : depthAt d code code.length = e :=
  h.text.last

theorem depthAt_succ {n : Nat} {i : Instr} (hi : code[n]? = some i) :
    depthAt d code (n + 1) = i.depthBehind (depthAt d code n) :=
  stateAt_succ hi

theorem depthAt_append (more : List Instr) : depthAt d (code ++ more) code.length =
    depthAt d code code.length := by
  rw [depthAt, depthAt, List.take_left, List.take_length]

/-! ## Replays of balanced code -/

/-- A replay meets the one depth that there is at a place. -/
theorem Scanned.replay (h : Scanned 0 code e) {n : Nat} (hpath : Replay code n d) :
    d = depthAt 0 code n := by
  have hmarks : ∀ u i l, FitsDepth u i → Control.marks? i = some l → u = labelDepth l :=
    fun u i l hfits => hfits.marks l
  refine h.text.path (fun u i _ hfalls => if_pos hfalls) hmarks (fun u i l hfits => hfits.jumps l)
    (fun n u hstart => ?_) hpath
  obtain ⟨rfl, rfl | ⟨m, i, rfl, hi, hfalls⟩⟩ := hstart
  · rfl
  · rw [stateAt_succ hi, Instr.depthBehind, hfalls]
    rfl

theorem replay_depthAt (code : List Instr) : ∀ n ≤ code.length, Replay code n (depthAt 0 code n)
  | 0, _ => .start ⟨rfl, .inl rfl⟩
  | n + 1, hn => by
    have hi : code[n]? = some code[n] := List.getElem?_eq_getElem hn
    have hpath := replay_depthAt code n (Nat.le_of_succ_le hn)
    rw [depthAt_succ hi, Instr.depthBehind]
    by_cases hfalls : Control.falls code[n]
    · rw [if_pos hfalls]
      exact .next hpath hi (.falls hi hfalls)
    · rw [if_neg hfalls]
      exact .start ⟨rfl, .inr ⟨n, _, rfl, hi, Bool.eq_false_iff.mpr hfalls⟩⟩

/-! ## The greatest depth -/

theorem le_greatestDepth (d : Nat) (code : List Instr) : d ≤ greatestDepth d code := by
  cases code with
  | nil => exact Nat.le_refl d
  | cons i rest => exact Nat.le_max_left d _

theorem depthAt_le_greatest (d : Nat) (code : List Instr) (n : Nat) :
    depthAt d code n ≤ greatestDepth d code := by
  induction code generalizing d n with
  | nil =>
    rw [depthAt, List.take_nil]
    exact Nat.le_refl d
  | cons i rest ih =>
    cases n with
    | zero => exact Nat.le_max_left d _
    | succ n => exact Nat.le_trans (ih _ n) (Nat.le_max_right d _)

theorem exists_depthAt_greatest (d : Nat) (code : List Instr) :
    ∃ n ≤ code.length, depthAt d code n = greatestDepth d code := by
  induction code generalizing d with
  | nil => exact ⟨0, Nat.le_refl 0, rfl⟩
  | cons i rest ih =>
    rw [greatestDepth]
    rcases Nat.le_total d (greatestDepth (i.depthBehind d) rest) with hle | hle
    · obtain ⟨n, hn, hdepth⟩ := ih (i.depthBehind d)
      exact ⟨n + 1, Nat.succ_le_succ hn, hdepth.trans (Nat.max_eq_right hle).symm⟩
    · exact ⟨0, Nat.zero_le _, (Nat.max_eq_left hle).symm⟩

theorem greatestDepth_load {i : Instr} (hi : i.isLoad) (d : Nat) (rest : List Instr) :
    greatestDepth d (i :: rest) = max d (greatestDepth (d + 1) rest) := by
  obtain ⟨hpops, hpushes⟩ := load_words hi
  rw [greatestDepth, depthBehind_straight (isLoad_straight hi), hpops, hpushes]
  rfl

theorem greatestDepth_less {i j : Instr} (hi : i.isLoad) (hj : j.isLoad) (n : Nat)
    (rest : List Instr) :
    greatestDepth 0 (lessCode n i j ++ rest) = max 2 (greatestDepth 1 rest) := by
  rw [lessCode, List.cons_append, greatestDepth_load hi, List.cons_append, greatestDepth_load hj]
  show max 0 (max 1 (max 2 (max 0 (max 1 (max 0 (max 0 (max 1 (greatestDepth 1 rest)))))))) = _
  omega

/-- Emission counts the greatest depth of balanced code. -/
theorem Balanced.peak (h : Balanced d code e) :
    ∀ p, d ≤ p → (code.foldl track (d, p)).2 = max p (greatestDepth d code) := by
  induction h with
  | nil => exact fun p hp => (Nat.max_eq_left hp).symm
  | @straight d e i rest hi hpops _ ih =>
    intro p hp
    have hle := le_greatestDepth (d - i.pops + i.pushes) rest
    rw [List.foldl_cons, track_straight hi hpops, ih _ (Nat.le_max_right p _), greatestDepth,
      depthBehind_straight hi]
    omega
  | @label e l rest hl _ ih =>
    intro p hp
    rw [List.foldl_cons, track_label hl, ih p hp]
    show max p _ = max p (max 0 (greatestDepth 0 rest))
    rw [Nat.zero_max]
  | @jump d e i l rest hi _ hpops _ ih =>
    intro p hp
    subst hpops
    rw [List.foldl_cons, track_jump hi, ih p (Nat.zero_le p), greatestDepth, (depthBehind_jump hi).1]
    omega
  | @ret d e kind rest _ _ ih =>
    intro p hp
    have htrack : track (d, p) (.ret kind) = (0, p) := rfl
    rw [List.foldl_cons, htrack, ih p (Nat.zero_le p)]
    show max p _ = max p (max d (greatestDepth 0 rest))
    omega
  | @less e n i j rest hi hj _ ih =>
    intro p _
    rw [List.foldl_append, track_less hi hj, ih _ (by omega), greatestDepth_less hi hj]
    omega

end MiniJava.Jvm
