import Mathlib.Data.List.Nodup
import Mathlib.Data.List.Chain
import Mathlib.Logic.Relation

/-!
# Dominance in a control-flow graph

A flow graph has an entry, and an entry in a list for each branch of a node. `Dominates` and
`PostDominates` speak of the walks from the entry and of those to an end. A node is a full
dominator where it dominates all its successors, and a full post-dominator where it post-dominates
all its predecessors.

In a graph without critical edges, a successor of a full dominator that has several predecessors is
a full dominator itself (`FullDominator.succ`).
-/

set_option autoImplicit false

namespace GreenFuzz.Library

/-- A control-flow graph, with its nodes in a list. -/
structure FlowGraph (α : Type*) where
  entry : α
  nodes : List α
  succs : α → List α
  nodup : nodes.Nodup
  outside : ∀ x, x ∉ nodes → succs x = []

namespace FlowGraph

variable {α : Type*} (G : FlowGraph α)

def Edge (x y : α) : Prop := y ∈ G.succs x

def Reachable (x : α) : Prop := Relation.ReflTransGen G.Edge G.entry x

/-- There is a walk from a node to another one that keeps off a third. -/
def Bypass (avoid x y : α) : Prop :=
  x ≠ avoid ∧ Relation.ReflTransGen (fun x y => G.Edge x y ∧ y ≠ avoid) x y

/-- Every walk from the entry to a node passes another one. -/
def Dominates (a b : α) : Prop := ¬ G.Bypass a G.entry b

/-- Every walk from a node to an end passes another one. -/
def PostDominates (ends : α → Prop) (a b : α) : Prop := ∀ last, ends last → ¬ G.Bypass a b last

/-- The node has successors and dominates all of them. -/
def FullDominator (b : α) : Prop := G.succs b ≠ [] ∧ ∀ s ∈ G.succs b, G.Dominates b s

section Preds

variable [DecidableEq α]

/-- The predecessors of a node, one for each branch to it. -/
def preds (y : α) : List α := G.nodes.flatMap fun x => List.replicate ((G.succs x).count y) x

/-- The node has predecessors and post-dominates all of them. -/
def FullPostDominator (ends : α → Prop) (b : α) : Prop :=
  G.preds b ≠ [] ∧ ∀ p ∈ G.preds b, G.PostDominates ends b p

/-- A graph as it is after its critical edges have been split: where a node has several branches,
each of them is the only one to its target. The entry has no predecessors, and those of a
reachable node are reachable: an unreachable one would not count for `Dominates`, but for the number
of predecessors. -/
structure Split : Prop where
  entry : ∀ x, ¬ G.Edge x G.entry
  edges : ∀ x, 2 ≤ (G.succs x).length → ∀ y ∈ G.succs x, (G.preds y).length ≤ 1
  reachable : ∀ x y, G.Edge x y → G.Reachable y → G.Reachable x

variable {G}

theorem mem_preds {x y : α} : x ∈ G.preds y ↔ G.Edge x y := by
  simp only [preds, List.mem_flatMap, List.mem_replicate, Edge]
  constructor
  · rintro ⟨z, _, count, rfl⟩
    exact List.count_pos_iff.mp (Nat.pos_of_ne_zero count)
  · intro edge
    refine ⟨x, ?_, Nat.pos_iff_ne_zero.mp (List.count_pos_iff.mpr edge), rfl⟩
    by_contra notNode
    rw [G.outside x notNode] at edge
    exact absurd edge List.not_mem_nil

theorem eq_of_length_preds {x x' y : α} (one : (G.preds y).length ≤ 1) (edge : G.Edge x y)
    (edge' : G.Edge x' y) : x = x' := by
  obtain ⟨only, same⟩ := List.length_eq_one_iff.mp
    (le_antisymm one (List.length_pos_of_mem (mem_preds.mpr edge)))
  have isFirst := same ▸ mem_preds.mpr edge
  have isSecond := same ▸ mem_preds.mpr edge'
  rw [List.mem_singleton.mp isFirst, List.mem_singleton.mp isSecond]

/-- A node is a predecessor as often as it has branches. -/
theorem count_preds_le (x y : α) : (G.preds y).count x ≤ (G.succs x).count y := by
  have among : ∀ nodes : List α, nodes.Nodup →
      (nodes.flatMap fun z => List.replicate ((G.succs z).count y) z).count x ≤
        (G.succs x).count y := by
    intro nodes nodup
    induction nodes with
    | nil => exact Nat.zero_le _
    | cons z rest ih =>
        obtain ⟨notMember, nodup⟩ := List.nodup_cons.mp nodup
        rw [List.flatMap_cons, List.count_append, List.count_replicate]
        by_cases same : z = x
        · subst same
          have absent : (rest.flatMap fun w => List.replicate ((G.succs w).count y) w).count z =
              0 := by
            refine List.count_eq_zero.mpr fun member => notMember ?_
            obtain ⟨w, inside, isCopy⟩ := List.mem_flatMap.mp member
            exact (List.eq_of_mem_replicate isCopy) ▸ inside
          rw [absent]
          simp
        · rw [if_neg (by simpa using same), Nat.zero_add]
          exact ih nodup
  exact among G.nodes G.nodup

/-- The only branch of a node leads to a node with several predecessors: another one has it as a
successor as well. -/
theorem exists_other_pred {b s : α} (only : G.succs b = [s]) (many : (G.preds s).length ≠ 1) :
    ∃ p, p ≠ b ∧ G.Edge p s := by
  by_contra none
  have all : ∀ p ∈ G.preds s, p = b := fun p member => by
    by_contra differs
    exact none ⟨p, differs, mem_preds.mp member⟩
  have edge : G.Edge b s := by
    rw [Edge, only]
    exact List.mem_singleton_self s
  have copies := List.eq_replicate_of_mem all
  have once := G.count_preds_le b s
  rw [only, copies, List.count_replicate_self, List.count_singleton_self] at once
  have := List.length_pos_of_mem (mem_preds.mpr edge)
  omega

end Preds

/-! ## Walks that keep off a node -/

section Walks

variable {G} {a b c x y z : α}

theorem Bypass.tail (walk : G.Bypass a x y) (edge : G.Edge y z) (off : z ≠ a) : G.Bypass a x z :=
  ⟨walk.1, walk.2.tail ⟨edge, off⟩⟩

theorem Bypass.end_ne (walk : G.Bypass a x y) : y ≠ a := by
  obtain ⟨off, path⟩ := walk
  rcases Relation.ReflTransGen.cases_tail path with same | ⟨before, _, step⟩
  · exact same ▸ off
  · exact step.2

theorem Bypass.trans (first : G.Bypass a x y) (second : G.Bypass a y z) : G.Bypass a x z :=
  ⟨first.1, first.2.trans second.2⟩

theorem Bypass.single (off : x ≠ a) (edge : G.Edge x y) (off' : y ≠ a) : G.Bypass a x y :=
  ⟨off, .single ⟨edge, off'⟩⟩

/-- A walk keeps off a second node as well, or it comes to it. -/
theorem Bypass.or_reaches (walk : G.Bypass a x y) (b : α) : G.Bypass b x y ∨ G.Bypass a x b := by
  obtain ⟨off, path⟩ := walk
  induction path with
  | refl =>
      by_cases here : x = b
      · exact .inr (here ▸ ⟨off, .refl⟩)
      · exact .inl ⟨here, .refl⟩
  | @tail y z path step ih =>
      rcases ih with around | comes
      · by_cases here : z = b
        · exact .inr ⟨off, here ▸ path.tail step⟩
        · exact .inl (around.tail step.1 here)
      · exact .inr comes

/-- A walk keeps off a second node as well, or it goes on from it. -/
theorem Bypass.or_leaves (walk : G.Bypass a x y) (b : α) : G.Bypass b x y ∨ G.Bypass a b y := by
  obtain ⟨off, path⟩ := walk
  induction path with
  | refl =>
      by_cases here : x = b
      · exact .inr (here ▸ ⟨off, .refl⟩)
      · exact .inl ⟨here, .refl⟩
  | @tail y z path step ih =>
      rcases ih with around | goes
      · by_cases here : z = b
        · exact .inr (here ▸ ⟨step.2, .refl⟩)
        · exact .inl (around.tail step.1 here)
      · exact .inr (goes.tail step.1 step.2)

theorem Dominates.refl (b : α) : G.Dominates b b := fun walk => walk.end_ne rfl

theorem Dominates.trans (first : G.Dominates a b) (second : G.Dominates b c) : G.Dominates a c :=
  fun walk => (walk.or_reaches b).elim second first

theorem PostDominates.trans {ends : α → Prop} (first : G.PostDominates ends a b)
    (second : G.PostDominates ends b c) : G.PostDominates ends a c :=
  fun last isLast walk => (walk.or_leaves b).elim (second last isLast) (first last isLast)

/-- From the entry to a node there is a walk that keeps off another one, or one that leaves that
one for the last time. -/
theorem Reachable.bypass_or (reachable : G.Reachable b) (a : α) :
    G.Bypass a G.entry b ∨ b = a ∨ ∃ s, G.Edge a s ∧ G.Bypass a s b := by
  induction reachable with
  | refl =>
      by_cases here : G.entry = a
      · exact .inr (.inl here)
      · exact .inl ⟨here, .refl⟩
  | @tail b c path edge ih =>
      by_cases here : c = a
      · exact .inr (.inl here)
      · rcases ih with around | rfl | ⟨s, leaves, around⟩
        · exact .inl (around.tail edge here)
        · exact .inr (.inr ⟨c, edge, here, .refl⟩)
        · exact .inr (.inr ⟨s, leaves, around.tail edge here⟩)

end Walks

/-! ## Full dominators -/

section FullDominators

variable {G} [DecidableEq α] {b s : α}

/-- The target of one of several branches is dominated. -/
theorem Split.dominates (split : G.Split) (several : 2 ≤ (G.succs b).length) (edge : G.Edge b s) :
    G.Dominates b s := by
  rintro ⟨off, path⟩
  rcases Relation.ReflTransGen.cases_tail path with same | ⟨before, walk, step⟩
  · exact split.entry b (same ▸ edge)
  · have only := eq_of_length_preds (split.edges b several s edge) step.1 edge
    exact (show G.Bypass b G.entry before from ⟨off, walk⟩).end_ne only

/-- A successor of a full dominator is a full dominator itself, or the full dominator is its only
predecessor. -/
theorem FullDominator.succ (split : G.Split) (full : G.FullDominator b) (edge : G.Edge b s)
    (reachable : G.Reachable s) (many : (G.preds s).length ≠ 1) : G.FullDominator s := by
  have positive := List.length_pos_of_mem (mem_preds.mpr edge)
  have only : G.succs b = [s] := by
    have short : ¬ 2 ≤ (G.succs b).length := fun several => by
      have := split.edges b several s edge
      omega
    have one := List.length_pos_of_mem edge
    obtain ⟨t, same⟩ := List.length_eq_one_iff.mp (show (G.succs b).length = 1 by omega)
    rw [Edge, same] at edge
    rw [same, List.mem_singleton.mp edge]
  by_cases loop : s = b
  · exact loop ▸ full
  obtain ⟨p, differs, back⟩ := exists_other_pred only many
  -- A walk to the other predecessor passes the full dominator, and the successor behind it.
  have passes : ¬ G.Bypass s G.entry p := by
    intro walk
    rcases walk.or_leaves b with around | ⟨_, leaves⟩
    · exact full.2 s edge (around.tail back loop)
    · rcases Relation.ReflTransGen.cases_head leaves with same | ⟨next, ⟨step, off⟩, _⟩
      · exact differs same.symm
      · rw [Edge, only] at step
        exact off (List.mem_singleton.mp step)
  have goesOn : p = s ∨ ∃ t, G.Edge s t ∧ G.Bypass s t p :=
    ((split.reachable p s back reachable).bypass_or s).resolve_left passes
  refine ⟨?_, fun t isSucc => ?_⟩
  · rcases goesOn with rfl | ⟨t, isSucc, _⟩
    · exact List.ne_nil_of_mem back
    · exact List.ne_nil_of_mem isSucc
  · by_cases several : 2 ≤ (G.succs s).length
    · exact split.dominates several isSucc
    · have alone : ∀ t', G.Edge s t' → t' = t := by
        intro t' isSucc'
        obtain ⟨u, same⟩ := List.length_eq_one_iff.mp
          (show (G.succs s).length = 1 by have := List.length_pos_of_mem isSucc; omega)
        rw [Edge, same] at isSucc'
        rw [same] at isSucc
        rw [List.mem_singleton.mp isSucc', List.mem_singleton.mp isSucc]
      rcases goesOn with rfl | ⟨t', isSucc', walk⟩
      · exact alone p back ▸ Dominates.refl p
      · obtain rfl := alone t' isSucc'
        exact fun toSucc => passes (toSucc.trans walk)

end FullDominators

/-! ## Complete walks -/

/-- A walk from the entry to a node without successors, as the list of its nodes. -/
structure Complete (walk : List α) : Prop where
  head : walk.head? = some G.entry
  chain : walk.IsChain G.Edge
  last : ∀ x ∈ walk.getLast?, G.succs x = []

section CompleteWalks

variable {G} {walk before later : List α} {a b c : α}

theorem bypass_of_chain (chain : (b :: later).IsChain G.Edge) (off : a ∉ b :: later) :
    ∀ x ∈ b :: later, G.Bypass a b x := by
  have here : b ≠ a := fun same => off (same ▸ List.mem_cons_self)
  induction later generalizing b with
  | nil =>
      intro x member
      rw [List.mem_singleton.mp member]
      exact ⟨here, .refl⟩
  | cons c later ih =>
      intro x member
      obtain ⟨edge, chain⟩ := List.isChain_cons_cons.mp chain
      have off' : a ∉ c :: later := fun inside => off (List.mem_cons_of_mem _ inside)
      have next : c ≠ a := fun same => off' (same ▸ List.mem_cons_self)
      rcases List.mem_cons.mp member with rfl | inLater
      · exact ⟨here, .refl⟩
      · exact (Bypass.single here edge next).trans (ih chain off' next x inLater)

theorem Complete.eq_cons (complete : G.Complete walk) : ∃ later, walk = G.entry :: later := by
  cases walk with
  | nil => exact absurd complete.head (by simp)
  | cons b later => exact ⟨later, by rw [Option.some.inj complete.head]⟩

theorem Complete.reachable (complete : G.Complete walk) (member : b ∈ walk) :
    G.Reachable b := by
  obtain ⟨later, rfl⟩ := complete.eq_cons
  rcases List.mem_cons.mp member with rfl | inLater
  · exact .refl
  · exact complete.chain.cons_induction G.Reachable later
      (fun x y edge reachable => reachable.tail edge) .refl b inLater

/-- A complete walk through a node goes through what dominates it. -/
theorem Complete.mem_of_dominates (complete : G.Complete walk) (member : c ∈ walk)
    (dominates : G.Dominates b c) : b ∈ walk := by
  obtain ⟨later, rfl⟩ := complete.eq_cons
  by_contra off
  exact dominates (bypass_of_chain complete.chain off c member)

/-- A complete walk through a node goes through what post-dominates it. -/
theorem Complete.mem_of_postDominates {ends : α → Prop} (exits : ∀ x, G.succs x = [] → ends x)
    (complete : G.Complete walk) (member : c ∈ walk) (dominates : G.PostDominates ends b c) :
    b ∈ walk := by
  obtain ⟨before, later, rfl⟩ := List.append_of_mem member
  by_contra off
  have off' : b ∉ c :: later := fun inside => off (List.mem_append_right _ inside)
  have last : (c :: later).getLast? = some ((c :: later).getLast (List.cons_ne_nil _ _)) :=
    List.getLast?_eq_some_getLast _
  refine dominates _ (exits _ (complete.last _ ?_))
    (bypass_of_chain (List.isChain_split.mp complete.chain).2 off' _
      (List.getLast_mem (List.cons_ne_nil _ _)))
  rw [List.getLast?_append, last]
  rfl

variable [DecidableEq α]

/-- The nodes that are watched: the entry, and those that are neither full dominators nor full
post-dominators with several predecessors. -/
def Watched (G : FlowGraph α) (ends : α → Prop) (b : α) : Prop :=
  b = G.entry ∨
    ¬ G.FullDominator b ∧ ¬ (G.FullPostDominator ends b ∧ (G.preds b).length ≠ 1)

variable {ends : α → Prop}

/-- Behind a full dominator a complete walk comes to a watched node that it dominates. -/
theorem Complete.watched_later (split : G.Split) (complete : G.Complete (before ++ b :: later))
    (full : G.FullDominator b) : ∃ c ∈ later, G.Watched ends c ∧ G.Dominates b c := by
  induction later generalizing before b with
  | nil => exact absurd (complete.last b (by simp)) full.1
  | cons s later ih =>
      have edge : G.Edge b s := (List.isChain_append_cons_cons.mp complete.chain).2.1
      have dominates := full.2 s edge
      by_cases watched : G.Watched ends s
      · exact ⟨s, List.mem_cons_self, watched, dominates⟩
      · have reachable := complete.reachable (show s ∈ _ by simp)
        have full' : G.FullDominator s := by
          by_contra notFull
          obtain ⟨_, many⟩ : G.FullPostDominator ends s ∧ (G.preds s).length ≠ 1 := by
            by_contra notPost
            exact watched (.inr ⟨notFull, notPost⟩)
          exact notFull (full.succ split edge reachable many)
        have complete' : G.Complete ((before ++ [b]) ++ s :: later) := by
          rw [List.append_assoc]
          exact complete
        obtain ⟨c, inside, isWatched, dominates'⟩ := ih complete' full'
        exact ⟨c, List.mem_cons_of_mem _ inside, isWatched, dominates.trans dominates'⟩

/-- Before a full post-dominator with several predecessors a complete walk comes to a watched node
that it post-dominates, where it is no full dominator. -/
theorem Complete.watched_before (split : G.Split) (complete : G.Complete (before ++ b :: later))
    (notFull : ¬ G.FullDominator b) (post : G.FullPostDominator ends b)
    (many : (G.preds b).length ≠ 1) :
    ∃ c ∈ before, G.Watched ends c ∧ G.PostDominates ends b c := by
  induction before using List.reverseRecOn generalizing b later with
  | nil =>
      have isEntry : b = G.entry := Option.some.inj complete.head
      obtain ⟨p, isPred⟩ := List.exists_mem_of_ne_nil _ post.1
      exact absurd (isEntry ▸ mem_preds.mp isPred) (split.entry p)
  | append_singleton before p ih =>
      have whole : G.Complete (before ++ p :: b :: later) := by
        rw [List.append_assoc] at complete
        exact complete
      have edge : G.Edge p b := (List.isChain_append_cons_cons.mp whole.chain).2.1
      have dominates := post.2 p (mem_preds.mpr edge)
      by_cases watched : G.Watched ends p
      · exact ⟨p, by simp, watched, dominates⟩
      · have reachable := whole.reachable (show b ∈ _ by simp)
        have notFull' : ¬ G.FullDominator p := fun full =>
          notFull (full.succ split edge reachable many)
        obtain ⟨post', many'⟩ : G.FullPostDominator ends p ∧ (G.preds p).length ≠ 1 := by
          by_contra notPost
          exact watched (.inr ⟨notFull', notPost⟩)
        obtain ⟨c, inside, isWatched, dominates'⟩ := ih whole notFull' post' many'
        exact ⟨c, List.mem_append_left _ inside, isWatched, dominates.trans dominates'⟩

/-- A complete walk goes through a node exactly when it goes through a watched node that the node
dominates or post-dominates. -/
theorem Complete.mem_iff (split : G.Split) (exits : ∀ x, G.succs x = [] → ends x)
    (complete : G.Complete walk) (b : α) :
    b ∈ walk ↔
      ∃ c ∈ walk, G.Watched ends c ∧ (G.Dominates b c ∨ G.PostDominates ends b c) := by
  constructor
  · intro member
    by_cases watched : G.Watched ends b
    · exact ⟨b, member, watched, .inl (Dominates.refl b)⟩
    · obtain ⟨before, later, rfl⟩ := List.append_of_mem member
      by_cases full : G.FullDominator b
      · obtain ⟨c, inside, isWatched, dominates⟩ :=
          watched_later split complete full
        exact ⟨c, by simp [inside], isWatched, .inl dominates⟩
      · obtain ⟨post, many⟩ : G.FullPostDominator ends b ∧ (G.preds b).length ≠ 1 := by
          by_contra notPost
          exact watched (.inr ⟨full, notPost⟩)
        obtain ⟨c, inside, isWatched, dominates⟩ := complete.watched_before split full post many
        exact ⟨c, by simp [inside], isWatched, .inr dominates⟩
  · rintro ⟨c, member, _, dominates | dominates⟩
    · exact complete.mem_of_dominates member dominates
    · exact complete.mem_of_postDominates exits member dominates

end CompleteWalks

end FlowGraph

end GreenFuzz.Library
