/-
# Assigns on paths, and where phis are needed

A register whose assign lies on a path, and that may be loaded later, has a phi where another
assign can join: on the iterated frontier of the blocks that assign it (`PhisSuffice`).
Then between the last visit of the immediate dominator of a block without a phi and the
block no assign is met (`PhisSuffice.no_assign_tail`), and every load finds a value
(`PhisSuffice.loadsSupplied`).
-/
import MCompiler.Lib.FrontierWalks
import MCompiler.SsaPlacement

open FlowGraph

/-- The block `b` assigns the register `a`. -/
def Assigns (ir : Ir) (a b : ℕ) : Prop := ∃ i ∈ ir.blocks b, (ir.insts i).type = .assignVar a

/-- The register `a` is assigned in the blocks `w`, or by the instructions `pre` after them. -/
def AssignedOn (ir : Ir) (w pre : List ℕ) (a : ℕ) : Prop :=
  (∃ b ∈ w, Assigns ir a b) ∨ ∃ i ∈ pre, (ir.insts i).type = .assignVar a

/-- **No load before an assign**: on every path to a load its register is assigned. -/
def LoadsAssigned (ir : Ir) (entry : ℕ) : Prop :=
  ∀ w b, Walk (cfgEdge ir) entry (w ++ [b]) b → ∀ pre i post a, ir.blocks b = pre ++ i :: post →
    (ir.insts i).type = .loadVar a → AssignedOn ir w pre a

/-- The register `a` may be loaded before it is assigned again: by the instructions `post` of
the block `b`, or by a block that is reached from there. -/
inductive Live (ir : Ir) (a : ℕ) : ℕ → List ℕ → Prop
  | load {b i : ℕ} {post : List ℕ} : (ir.insts i).type = .loadVar a → Live ir a b (i :: post)
  | skip {b i : ℕ} {post : List ℕ} : (ir.insts i).type ≠ .assignVar a → Live ir a b post →
      Live ir a b (i :: post)
  | edge {b c : ℕ} : cfgEdge ir b c → Live ir a c (ir.blocks c) → Live ir a b []

/-- **The phis suffice**: a register has a phi on the iterated frontier of the blocks that
assign it, where it may still be loaded. -/
def PhisSuffice (ir : Ir) (entry : ℕ) (phis : ℕ → List PhiInfo) : Prop :=
  ∀ a b, IteratedFrontier (cfgEdge ir) entry (Assigning ir entry a) b →
    Live ir a b (ir.blocks b) → HasPhi phis b a

section Live

variable {ir : Ir} {entry a b c d : ℕ} {l post w s : List ℕ}

theorem Live.append (hl : ∀ i ∈ l, (ir.insts i).type ≠ .assignVar a) (h : Live ir a b post) :
    Live ir a b (l ++ post) := by
  induction l with
  | nil => exact h
  | cons i l ih =>
      exact .skip (hl i List.mem_cons_self) (ih fun j hj => hl j (List.mem_cons_of_mem _ hj))

/-- Blocks that do not assign the register keep it live. -/
theorem Live.of_walk (hs : ∀ z ∈ s, ¬ Assigns ir a z)
    (hw : Walk (cfgEdge ir) entry (w ++ [d] ++ s ++ [b]) b) (h : Live ir a b (ir.blocks b)) :
    Live ir a d [] := by
  induction s using List.reverseRecOn generalizing b with
  | nil =>
      rw [List.append_nil] at hw
      exact .edge hw.edge h
  | append_singleton s z ih =>
      have hsplit : w ++ [d] ++ (s ++ [z]) ++ [b] = (w ++ [d] ++ s) ++ [z] ++ b :: [] := by
        simp only [List.append_assoc]
      rw [hsplit] at hw
      refine ih (fun y hy => hs y (List.mem_append_left _ hy)) hw.of_append ?_
      have hz := hs z (List.mem_append_right _ (List.mem_singleton.mpr rfl))
      have hlive := Live.append (fun i hi htype => hz ⟨i, hi, htype⟩) (Live.edge hw.edge h)
      rwa [List.append_nil] at hlive

/-- At the end of a block that does not assign it, or at its start. -/
theorem Live.of_end (h : Live ir a b []) (hb : ¬ Assigns ir a b) : Live ir a b (ir.blocks b) := by
  have hlive := Live.append (fun i hi htype => hb ⟨i, hi, htype⟩) h
  rwa [List.append_nil] at hlive

end Live

section PhisSuffice

variable {ir : Ir} {entry a b d x : ℕ} {phis : ℕ → List PhiInfo} {w s : List ℕ}

/-- An assign from which a walk leads to `b` past its strict dominators. -/
theorem PhisSuffice.not_assigns (h : PhisSuffice ir entry phis) (hlive : Live ir a b (ir.blocks b))
    (hphi : ¬ HasPhi phis b a) (hw : Walk (cfgEdge ir) entry (w ++ [x] ++ s ++ [b]) b)
    (hx : ¬ StrictlyDominates (cfgEdge ir) entry x b)
    (hs : ∀ y ∈ s ++ [b], ¬ StrictlyDominates (cfgEdge ir) entry y b) : ¬ Assigns ir a x := by
  rw [List.append_assoc (w ++ [x])] at hw
  intro hassign
  exact hphi (h a b (iteratedFrontier_of_walk hw ⟨⟨_, hw.of_append⟩, hassign⟩ (by simp) hx hs) hlive)

/-- Before the entry is entered again. -/
theorem PhisSuffice.no_assign_entry (h : PhisSuffice ir entry phis)
    (hlive : Live ir a entry (ir.blocks entry)) (hphi : ¬ HasPhi phis entry a)
    (hw : Walk (cfgEdge ir) entry (w ++ [entry]) entry) : ∀ x ∈ w, ¬ Assigns ir a x := by
  intro x hx
  obtain ⟨p, q, rfl⟩ := List.append_of_mem hx
  have hsplit : p ++ x :: q ++ [entry] = p ++ [x] ++ q ++ [entry] := by
    simp only [List.append_assoc, List.singleton_append]
  rw [hsplit] at hw
  exact h.not_assigns hlive hphi hw (not_strictlyDominates_root x)
    fun y _ => not_strictlyDominates_root y

/-- **Behind the immediate dominator** of a block without a phi there is no assign. -/
theorem PhisSuffice.no_assign_tail (h : PhisSuffice ir entry phis)
    (hlive : Live ir a b (ir.blocks b)) (hphi : ¬ HasPhi phis b a)
    (hidom : IsIDom (cfgEdge ir) entry d b)
    (hw : Walk (cfgEdge ir) entry (w ++ [d] ++ s ++ [b]) b) (hds : d ∉ s) :
    ∀ x ∈ s, ¬ Assigns ir a x := by
  have hw' := hw
  rw [List.append_assoc (w ++ [d])] at hw'
  have hdb : d ∉ s ++ [b] := by
    rw [List.mem_append, List.mem_singleton, not_or]
    exact ⟨hds, hidom.strict.1⟩
  have hnot := hidom.not_strictlyDominates_tail hw' hdb
  intro x hx
  obtain ⟨p, q, rfl⟩ := List.append_of_mem hx
  have hsplit : w ++ [d] ++ (p ++ x :: q) ++ [b] = (w ++ [d] ++ p) ++ [x] ++ q ++ [b] := by
    simp only [List.append_assoc, List.cons_append, List.nil_append]
  rw [hsplit] at hw
  refine h.not_assigns hlive hphi hw (hnot x (List.mem_append_left _ hx)) fun y hy => hnot y ?_
  rcases List.mem_append.mp hy with hy | hy
  · exact List.mem_append_left _ (List.mem_append_right _ (List.mem_cons_of_mem _ hy))
  · exact List.mem_append_right _ hy

/-- The last visit of the immediate dominator before a block. -/
theorem exists_last_idom (hw : Walk (cfgEdge ir) entry (w ++ [b]) b)
    (hidom : IsIDom (cfgEdge ir) entry d b) : ∃ w₁ s, w = w₁ ++ [d] ++ s ∧ d ∉ s := by
  refine exists_last_visit ?_
  rcases List.mem_append.mp (hidom.strict.2 _ hw) with hd | hd
  · exact hd
  · exact absurd (List.mem_singleton.mp hd) hidom.strict.1

/-- **A register that is assigned on a path** to `b` has a value there: from a phi, or from
above. -/
theorem PhisSuffice.exists_writes {doms : Dominators} (h : PhisSuffice ir entry phis)
    (hdoms : CorrectDoms ir entry doms) (hw : Walk (cfgEdge ir) entry (w ++ [b]) b)
    (hlive : Live ir a b (ir.blocks b)) (hassign : ∃ x ∈ w, Assigns ir a x) :
    HasPhi phis b a ∨ ∃ x, StrictlyDominates (cfgEdge ir) entry x b ∧ Writes ir phis x a := by
  obtain ⟨n, hn⟩ : ∃ n, w.length ≤ n := ⟨_, le_rfl⟩
  induction n generalizing w b with
  | zero =>
      obtain ⟨x, hx, -⟩ := hassign
      rw [List.length_eq_zero_iff.mp (Nat.le_zero.mp hn)] at hx
      cases hx
  | succ n ih =>
      by_cases hphi : HasPhi phis b a
      · exact .inl hphi
      · obtain ⟨x, hx, hxa⟩ := hassign
        by_cases hentry : b = entry
        · rw [hentry] at hw hlive hphi
          exact absurd hxa (h.no_assign_entry hlive hphi hw x hx)
        · obtain ⟨d, -, hidom⟩ := hdoms.idom b ⟨_, hw⟩ hentry
          obtain ⟨w₁, s, rfl, hds⟩ := exists_last_idom hw hidom
          have htail := h.no_assign_tail hlive hphi hidom hw hds
          by_cases hd : Assigns ir a d
          · exact .inr ⟨d, hidom.strict, .inl hd⟩
          · have hx₁ : x ∈ w₁ := by
              rcases List.mem_append.mp hx with hx | hx
              · rcases List.mem_append.mp hx with hx | hx
                · exact hx
                · exact absurd (List.mem_singleton.mp hx ▸ hxa) hd
              · exact absurd hxa (htail x hx)
            have hw₁ : Walk (cfgEdge ir) entry (w₁ ++ [d]) d := by
              rw [List.append_assoc (w₁ ++ [d])] at hw
              exact hw.of_append
            have hlen : w₁.length ≤ n := by
              rw [List.length_append, List.length_append, List.length_singleton] at hn
              omega
            rcases ih hw₁ ((Live.of_walk htail hw hlive).of_end hd) ⟨x, hx₁, hxa⟩ hlen with
              hdphi | ⟨y, hy, hwrites⟩
            · exact .inr ⟨d, hidom.strict, .inr hdphi⟩
            · exact .inr ⟨y, .trans ⟨_, hw⟩ hy.2 hidom.strict, hwrites⟩

/-- **Every load finds a value.** -/
theorem PhisSuffice.loadsSupplied {doms : Dominators} (h : PhisSuffice ir entry phis)
    (hdoms : CorrectDoms ir entry doms) (hassigned : LoadsAssigned ir entry) :
    LoadsSupplied ir entry phis := by
  intro b hb pre i post a hblock htype
  by_cases hpre : ∃ j ∈ pre, (ir.insts j).type = .assignVar a
  · exact .inl hpre
  · obtain ⟨p, hp⟩ := hb
    obtain ⟨w, rfl⟩ := hp.last
    have hlive : Live ir a b (ir.blocks b) := by
      rw [hblock]
      exact .append (fun j hj hja => hpre ⟨j, hj, hja⟩) (.load htype)
    have hw := (hassigned w b hp pre i post a hblock htype).resolve_right hpre
    exact .inr (h.exists_writes hdoms hp hlive hw)

end PhisSuffice
