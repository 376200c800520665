import Mathlib.Data.List.Find
import Mathlib.Logic.Function.Basic

/-!
# `Lib.NameTree` — nodes with names and ordered children

A `NameGraph` gives every node a name and a list of children. Nothing is assumed of it: children may be
shared or cyclic. A `Trail` from `v` to `w` goes from node to child and spells the names it passes;
`descend` follows a list of names, taking the first child of each name.

`graft` puts another node in the place of one child and renames it: what `child` finds afterwards is what
it found before, away from that place.

`IsTree g root` says that what hangs below `root` is a tree whose siblings have distinct names. There,
following names and going along trails are the same (`IsTree.descend_iff`), and a node has one trail
only (`IsTree.trail_unique`).
-/

namespace Lib

variable {ν κ : Type}

/-- Nodes with a name and an ordered list of children. -/
structure NameGraph (ν κ : Type) where
  name : ν → κ
  children : ν → List ν

namespace NameGraph

variable (g : NameGraph ν κ)

/-- From `v` along children to `w`, spelling the names of the nodes entered. -/
inductive Trail : ν → List κ → ν → Prop where
  | here (v : ν) : Trail v [] v
  | enter {v c w : ν} {ks : List κ} : c ∈ g.children v → Trail c ks w → Trail v (g.name c :: ks) w

/-- Some trail leads from `v` to `w`. -/
def Reaches (v w : ν) : Prop := ∃ ks, g.Trail v ks w

variable {g}
variable {u v w x c d : ν} {k : κ} {ks ks' : List κ}

/-! ## Trails -/

theorem trail_nil : g.Trail v [] w ↔ v = w := by
  constructor
  · intro h
    cases h
    rfl
  · rintro rfl
    exact .here v

theorem trail_cons :
    g.Trail v (k :: ks) w ↔ ∃ c, c ∈ g.children v ∧ g.name c = k ∧ g.Trail c ks w := by
  constructor
  · intro h
    cases h with
    | enter hc ht => exact ⟨_, hc, rfl, ht⟩
  · rintro ⟨c, hc, rfl, ht⟩
    exact .enter hc ht

/-- **Trails compose.** -/
theorem trail_append : g.Trail v (ks ++ ks') x ↔ ∃ w, g.Trail v ks w ∧ g.Trail w ks' x := by
  induction ks generalizing v with
  | nil =>
      constructor
      · intro h
        exact ⟨v, .here v, h⟩
      · rintro ⟨w, hw, h⟩
        rwa [trail_nil.mp hw]
  | cons k ks ih =>
      rw [List.cons_append, trail_cons]
      constructor
      · rintro ⟨c, hc, hk, h⟩
        obtain ⟨w, hcw, hwx⟩ := ih.mp h
        exact ⟨w, trail_cons.mpr ⟨c, hc, hk, hcw⟩, hwx⟩
      · rintro ⟨w, hvw, hwx⟩
        obtain ⟨c, hc, hk, hcw⟩ := trail_cons.mp hvw
        exact ⟨c, hc, hk, ih.mpr ⟨w, hcw, hwx⟩⟩

/-- A trail goes one child further. -/
theorem Trail.concat (h : g.Trail v ks w) (hc : c ∈ g.children w) :
    g.Trail v (ks ++ [g.name c]) c :=
  trail_append.mpr ⟨w, h, .enter hc (.here c)⟩

/-- The last step of a trail: it has none, or it enters its end from a container of that. -/
theorem Trail.last (h : g.Trail v ks w) :
    (ks = [] ∧ v = w) ∨ ∃ u ks', g.Trail v ks' u ∧ w ∈ g.children u ∧ ks = ks' ++ [g.name w] := by
  rcases List.eq_nil_or_concat ks with rfl | ⟨ks', k, rfl⟩
  · exact .inl ⟨rfl, trail_nil.mp h⟩
  · rw [List.concat_eq_append] at h ⊢
    obtain ⟨u, hvu, huw⟩ := trail_append.mp h
    obtain ⟨c, hc, rfl, hcw⟩ := trail_cons.mp huw
    rw [trail_nil] at hcw
    subst hcw
    exact .inr ⟨u, ks', hvu, hc, rfl⟩

theorem Reaches.refl (v : ν) : g.Reaches v v := ⟨[], .here v⟩

theorem Reaches.trans (h : g.Reaches u v) (h' : g.Reaches v w) : g.Reaches u w := by
  obtain ⟨ks, hks⟩ := h
  obtain ⟨ks', hks'⟩ := h'
  exact ⟨ks ++ ks', trail_append.mpr ⟨v, hks, hks'⟩⟩

theorem Reaches.child (h : g.Reaches v w) (hc : c ∈ g.children w) : g.Reaches v c := by
  obtain ⟨ks, hks⟩ := h
  exact ⟨_, hks.concat hc⟩

/-- **Reachability, step by step.** What holds of `v` and passes from a reachable node to its children
    holds of everything reachable. -/
theorem Reaches.rec_on {P : ν → Prop} (h : g.Reaches v w) (here : P v)
    (step : ∀ d e, g.Reaches v d → P d → e ∈ g.children d → P e) : P w := by
  obtain ⟨ks, hks⟩ := h
  induction hks with
  | here v => exact here
  | enter hc _ ih =>
      apply ih (step _ _ (.refl _) here hc)
      intro d e hd hPd he
      exact step d e (((Reaches.refl _).child hc).trans hd) hPd he

/-- A graph that differs in the children of `w` only reaches `w` as before: a trail to `w` need not
    leave `w` before it ends there. -/
theorem Reaches.of_children_eq {g' : NameGraph ν κ} (hsame : ∀ d, d ≠ w → g'.children d = g.children d)
    (h : g.Reaches v w) : g'.Reaches v w := by
  obtain ⟨ks, hks⟩ := h
  induction hks with
  | here v => exact .refl v
  | @enter v c w ks hc _ ih =>
      by_cases hv : v = w
      · subst hv
        exact .refl v
      · exact ((Reaches.refl v).child (by rwa [hsame v hv])).trans (ih hsame)

/-! ## Trees -/

/-- What hangs below `root` is a tree with distinct sibling names: no node has two containers, and the
    root has none. -/
structure IsTree (g : NameGraph ν κ) (root : ν) : Prop where
  distinct : ∀ d, g.Reaches root d → (g.children d).Pairwise (g.name · ≠ g.name ·)
  container : ∀ d d' e, g.Reaches root d → g.Reaches root d' →
    e ∈ g.children d → e ∈ g.children d' → d = d'
  top : ∀ d, g.Reaches root d → root ∉ g.children d

variable {root : ν}

/-- **A node of a tree has one trail.** -/
theorem IsTree.trail_unique (h : g.IsTree root) (hks : g.Trail root ks w) (hks' : g.Trail root ks' w) :
    ks = ks' := by
  induction hn : ks.length generalizing ks ks' w with
  | zero =>
      rw [List.length_eq_zero_iff] at hn
      subst hn
      rw [trail_nil] at hks
      subst hks
      rcases hks'.last with ⟨rfl, _⟩ | ⟨u, l, hu, hmem, _⟩
      · rfl
      · exact absurd hmem (h.top u ⟨l, hu⟩)
  | succ n ih =>
      rcases hks.last with ⟨rfl, _⟩ | ⟨u, l, hu, hmem, rfl⟩
      · cases hn
      · rcases hks'.last with ⟨rfl, rfl⟩ | ⟨u', l', hu', hmem', rfl⟩
        · exact absurd hmem (h.top u ⟨l, hu⟩)
        · obtain rfl := h.container u u' w ⟨l, hu⟩ ⟨l', hu'⟩ hmem hmem'
          rw [ih hu hu' (by simpa using hn)]

/-- Only the empty trail leads to the root. -/
theorem IsTree.trail_root (h : g.IsTree root) (hks : g.Trail root ks root) : ks = [] :=
  h.trail_unique hks (.here root)

/-- Below a child of the root nothing leads back to the root. -/
theorem IsTree.ne_root (h : g.IsTree root) (hc : c ∈ g.children root) (hw : g.Reaches c w) : w ≠ root := by
  rintro rfl
  obtain ⟨ks, hks⟩ := hw
  cases h.trail_root (.enter hc hks)

/-- The container of a node entered by a trail's last step. -/
theorem IsTree.trail_container (h : g.IsTree root) (hks : g.Trail root ks w) (hu : g.Reaches root u)
    (hw : w ∈ g.children u) : ∃ ks', g.Trail root ks' u ∧ ks = ks' ++ [g.name w] := by
  obtain ⟨ks', hks'⟩ := hu
  exact ⟨ks', hks', h.trail_unique hks (hks'.concat hw)⟩

/-! ## Trees given by their nodes -/

/-- A list of nodes that contains `v` and is closed under children contains everything reachable. -/
theorem Reaches.mem_of_closed {nodes : List ν} (h : g.Reaches v w) (hv : v ∈ nodes)
    (hclosed : ∀ d ∈ nodes, ∀ e ∈ g.children d, e ∈ nodes) : w ∈ nodes :=
  h.rec_on hv fun d e _ hd he => hclosed d hd e he

/-- A tree can be checked on such a list. -/
theorem isTree_of_closed (nodes : List ν) (hroot : root ∈ nodes)
    (hclosed : ∀ d ∈ nodes, ∀ e ∈ g.children d, e ∈ nodes)
    (hdistinct : ∀ d ∈ nodes, (g.children d).Pairwise (g.name · ≠ g.name ·))
    (hcontainer : ∀ d ∈ nodes, ∀ d' ∈ nodes, ∀ e ∈ g.children d, e ∈ g.children d' → d = d')
    (htop : ∀ d ∈ nodes, root ∉ g.children d) : g.IsTree root where
  distinct d hd := hdistinct d (hd.mem_of_closed hroot hclosed)
  container d d' e hd hd' he he' := hcontainer d (hd.mem_of_closed hroot hclosed) d'
    (hd'.mem_of_closed hroot hclosed) e he he'
  top d hd := htop d (hd.mem_of_closed hroot hclosed)

/-! ## Following names -/

variable [DecidableEq κ]

/-- The first child of the name `k`. -/
def child (g : NameGraph ν κ) (v : ν) (k : κ) : Option ν :=
  (g.children v).find? fun c => g.name c = k

/-- Follow the names `ks` from `v`. -/
def descend (g : NameGraph ν κ) (v : ν) : List κ → Option ν
  | []      => some v
  | k :: ks => (g.child v k).bind fun c => g.descend c ks

theorem child_mem (h : g.child v k = some c) : c ∈ g.children v ∧ g.name c = k := by
  refine ⟨List.mem_of_find?_eq_some h, ?_⟩
  simpa using List.find?_some h

/-- With distinct sibling names a child is found under its name. -/
theorem child_eq_some (hd : (g.children v).Pairwise (g.name · ≠ g.name ·)) :
    g.child v k = some c ↔ c ∈ g.children v ∧ g.name c = k := by
  refine ⟨child_mem, ?_⟩
  rintro ⟨hc, rfl⟩
  unfold child
  generalize g.children v = cs at hd hc
  induction cs with
  | nil => cases hc
  | cons a cs ih =>
      rw [List.pairwise_cons] at hd
      rcases List.mem_cons.mp hc with rfl | hc
      · simp
      · rw [List.find?_cons_of_neg (by simpa using hd.1 c hc)]
        exact ih hd.2 hc

/-- Following names goes along a trail. -/
theorem descend_trail (h : g.descend v ks = some w) : g.Trail v ks w := by
  induction ks generalizing v with
  | nil => exact trail_nil.mpr (Option.some.inj h)
  | cons k ks ih =>
      obtain ⟨c, hc, hrest⟩ := Option.bind_eq_some_iff.mp h
      obtain ⟨hmem, hk⟩ := child_mem hc
      exact trail_cons.mpr ⟨c, hmem, hk, ih hrest⟩

/-- With distinct sibling names everywhere below `v`, every trail from `v` is found. -/
theorem descend_of_trail (hd : ∀ d, g.Reaches v d → (g.children d).Pairwise (g.name · ≠ g.name ·))
    (h : g.Trail v ks w) : g.descend v ks = some w := by
  induction h with
  | here v => rfl
  | @enter v c w ks hc _ ih =>
      rw [descend, (child_eq_some (hd v (.refl v))).mpr ⟨hc, rfl⟩, Option.bind_some]
      exact ih fun d hcd => hd d (((Reaches.refl v).child hc).trans hcd)

/-- **Following names finds exactly the trails.** -/
theorem IsTree.descend_iff (h : g.IsTree root) : g.descend root ks = some w ↔ g.Trail root ks w :=
  ⟨descend_trail, descend_of_trail h.distinct⟩

/-! ## Grafting -/

variable {p r : ν} {i : Nat}

/-- Replacing an element that a search passes over by another one that it passes over. -/
theorem find?_set_of_neg {f f' : ν → Bool} {cs : List ν} (hsame : ∀ c ∈ cs, f' c = f c)
    (hi : cs[i]? = some d) (hd : f d = false) (hr : f' r = false) :
    (cs.set i r).find? f' = cs.find? f := by
  induction cs generalizing i with
  | nil => rfl
  | cons a cs ih =>
      cases i with
      | zero =>
          obtain rfl : a = d := by simpa using hi
          rw [List.set_cons_zero, List.find?_cons_of_neg (by simp [hr]),
            List.find?_cons_of_neg (by simp [hd])]
          exact List.find?_congr fun c hc => hsame c (List.mem_cons_of_mem _ hc)
      | succ i =>
          rw [List.set_cons_succ, List.find?_cons, List.find?_cons, hsame a List.mem_cons_self,
            ih (fun c hc => hsame c (List.mem_cons_of_mem _ hc)) (by simpa using hi)]

variable [DecidableEq ν]

/-- Child number `i` of `p` is replaced by `r`, which is named `k` from now on. -/
def graft (g : NameGraph ν κ) (p : ν) (i : Nat) (r : ν) (k : κ) : NameGraph ν κ where
  name := Function.update g.name r k
  children := Function.update g.children p ((g.children p).set i r)

/-- Elsewhere the same children are found. -/
theorem graft_child_of_ne (hv : v ≠ p) (hr : r ∉ g.children v) {name : κ} :
    (g.graft p i r k).child v name = g.child v name := by
  unfold child graft
  simp only [Function.update_of_ne hv]
  refine List.find?_congr fun c hc => ?_
  have hcr : c ≠ r := by
    rintro rfl
    exact hr hc
  simp [Function.update_of_ne hcr]

/-- Under a name that neither the old nor the new child has, the same child is found. -/
theorem graft_child_other {name : κ} (hi : (g.children p)[i]? = some d) (hr : r ∉ g.children p)
    (hd : g.name d ≠ name) (hk : k ≠ name) : (g.graft p i r k).child p name = g.child p name := by
  unfold child graft
  simp only [Function.update_self]
  refine find?_set_of_neg (fun c hc => ?_) hi (by simpa using hd) (by simpa using hk)
  have hcr : c ≠ r := by
    rintro rfl
    exact hr hc
  simp [Function.update_of_ne hcr]

/-- Under the name of the old child, the new one is found when it took over the name. -/
theorem graft_child_self (hi : (g.children p)[i]? = some d) (hr : r ∉ g.children p)
    (hdist : (g.children p).Pairwise (g.name · ≠ g.name ·)) :
    (g.graft p i r (g.name d)).child p (g.name d) = some r := by
  unfold child graft
  simp only [Function.update_self]
  generalize g.children p = cs at hi hr hdist
  induction cs generalizing i with
  | nil => cases hi
  | cons a cs ih =>
      rw [List.pairwise_cons] at hdist
      cases i with
      | zero => simp
      | succ i =>
          rw [List.getElem?_cons_succ] at hi
          have hne : g.name a ≠ g.name d := hdist.1 d (List.mem_of_getElem? hi)
          have har : a ≠ r := by
            rintro rfl
            exact hr List.mem_cons_self
          rw [List.set_cons_succ, List.find?_cons_of_neg (by simpa [Function.update_of_ne har] using hne)]
          exact ih hi (fun h => hr (List.mem_cons_of_mem _ h)) hdist.2

end NameGraph

end Lib
