/-
The tree of a ZooKeeper server, as a client sees it.

The server is not part of the repository: it is any `ZooKeeper σ`, whose laws are what its documentation promises of
create, getChildren and the end of a session. Names are of the printable ASCII characters but the slash. A node belongs
to nobody, or to the session that has created it as ephemeral; an ephemeral node has no children and goes with its
session. Nodes are not deleted otherwise.

- `child_inj`: a path is a parent and a name, in one way.
- `create_frame`, `create_grows`: create changes its own path, and no node that is there.
- `Tree`: a server.
-/
import Mathlib.Tactic
import MCoroRpc.Zk.PendingOps

namespace MCoroRpc.Zk

open ZkClient (ZOK)

def ZNONODE : ℤ := -101
def ZNOCHILDRENFOREPHEMERALS : ℤ := -108
def ZNODEEXISTS : ℤ := -110

/-! ## Paths -/

def child (parent name : String) : String := parent ++ "/" ++ name

/-- a name of a node that every server takes -/
def IsName (name : String) : Prop :=
  name ≠ "" ∧ name ≠ "." ∧ name ≠ ".." ∧ name.toList.all fun c => c ≠ '/' ∧ 32 ≤ c.toNat ∧ c.toNat < 127

instance (name : String) : Decidable (IsName name) := inferInstanceAs (Decidable (_ ∧ _))

theorem IsName.not_mem {name : String} (h : IsName name) : '/' ∉ name.toList := by
  intro hmem
  have hslash := of_decide_eq_true (List.all_eq_true.1 h.2.2.2 '/' hmem)
  exact hslash.1 rfl

/-- what stands behind the last slash, and in front of it -/
theorem split_inj {p p' name name' : List Char} (hname : '/' ∉ name) (hname' : '/' ∉ name')
    (h : p ++ '/' :: name = p' ++ '/' :: name') : p = p' ∧ name = name' := by
  have hrev : name.reverse ++ '/' :: p.reverse = name'.reverse ++ '/' :: p'.reverse := by
    simpa using congrArg List.reverse h
  have htake : name.reverse = name'.reverse := by
    have htw := congrArg (List.takeWhile (· ≠ '/')) hrev
    have hstop : ∀ (x y : List Char), '/' ∉ x → (x ++ '/' :: y).takeWhile (· ≠ '/') = x := by
      intro x y hx
      have hall : ∀ c ∈ x, decide (c ≠ '/') = true := fun c hc => decide_eq_true (ne_of_mem_of_not_mem hc hx)
      rw [List.takeWhile_append_of_pos hall]
      simp
    rwa [hstop _ _ (by simpa using hname), hstop _ _ (by simpa using hname')] at htw
  rw [htake, List.append_cancel_left_eq, List.cons.injEq] at hrev
  exact ⟨List.reverse_inj.1 hrev.2, List.reverse_inj.1 htake⟩

theorem child_toList (p name : String) : (child p name).toList = p.toList ++ '/' :: name.toList := by
  simp [child]

theorem child_inj {p p' name name' : String} (hname : '/' ∉ name.toList) (hname' : '/' ∉ name'.toList) :
    child p name = child p' name' ↔ p = p' ∧ name = name' := by
  constructor
  · intro h
    have hlist := congrArg String.toList h
    rw [child_toList, child_toList] at hlist
    obtain ⟨h1, h2⟩ := split_inj hname hname' hlist
    exact ⟨String.toList_inj.1 h1, String.toList_inj.1 h2⟩
  · rintro ⟨rfl, rfl⟩
    rfl

/-! ## Servers -/

inductive Owner where
  | persistent
  /-- ephemeral, by the session `n` -/
  | session (n : ℕ)
deriving DecidableEq, Repr

/-- whom a new node belongs to -/
def Owner.of (n : ℕ) (ephemeral : Bool) : Owner := if ephemeral then .session n else .persistent

structure ZooKeeper (σ : Type) where
  node : String → σ → Option Owner
  /-- by the session `n` -/
  create (n : ℕ) (path : String) (ephemeral : Bool) : σ → ℤ × σ
  closeSession (n : ℕ) : σ → σ
  getChildren : String → σ → ℤ × List String
  create_exists {n : ℕ} {p name : String} {e : Bool} {t : σ} : IsName name → node (child p name) t ≠ none →
    create n (child p name) e t = (ZNODEEXISTS, t)
  create_orphan {n : ℕ} {p name : String} {e : Bool} {t : σ} : IsName name → node (child p name) t = none → p ≠ "" →
    node p t = none → create n (child p name) e t = (ZNONODE, t)
  create_below {n m : ℕ} {p name : String} {e : Bool} {t : σ} : IsName name → node (child p name) t = none → p ≠ "" →
    node p t = some (.session m) → create n (child p name) e t = (ZNOCHILDRENFOREPHEMERALS, t)
  create_new {n : ℕ} {p name : String} {e : Bool} {t : σ} : IsName name → node (child p name) t = none →
    p = "" ∨ node p t = some .persistent → (create n (child p name) e t).1 = ZOK ∧
      ∀ q, node q (create n (child p name) e t).2 = if q = child p name then some (.of n e) else node q t
  node_close {n : ℕ} {t : σ} (q : String) :
    node q (closeSession n t) = if node q t = some (.session n) then none else node q t
  children_none {p : String} {t : σ} : node p t = none → getChildren p t = (ZNONODE, [])
  children_some {p : String} {t : σ} : node p t ≠ none → (getChildren p t).1 = ZOK ∧ (getChildren p t).2.Nodup ∧
    ∀ name, name ∈ (getChildren p t).2 ↔ name ≠ "" ∧ '/' ∉ name.toList ∧ node (child p name) t ≠ none

namespace ZooKeeper

variable {σ : Type} (zk : ZooKeeper σ) {n : ℕ} {p name : String} {e : Bool} {t : σ}

/-- create leaves the tree alone, or adds one node -/
theorem create_cases (hname : IsName name) : zk.create n (child p name) e t = ((zk.create n (child p name) e t).1, t) ∨
    zk.node (child p name) t = none ∧ (p = "" ∨ zk.node p t = some .persistent) ∧
      ∀ q, zk.node q (zk.create n (child p name) e t).2 = if q = child p name then some (.of n e) else zk.node q t := by
  by_cases hnode : zk.node (child p name) t = none
  swap
  · left
    rw [zk.create_exists hname hnode]
  by_cases hroot : p = ""
  · exact .inr ⟨hnode, .inl hroot, (zk.create_new hname hnode (.inl hroot)).2⟩
  cases hp : zk.node p t with
  | none =>
    left
    rw [zk.create_orphan hname hnode hroot hp]
  | some o =>
    cases o with
    | persistent => exact .inr ⟨hnode, .inr rfl, (zk.create_new hname hnode (.inr hp)).2⟩
    | session m =>
      left
      rw [zk.create_below hname hnode hroot hp]

/-- other paths are as they were -/
theorem create_frame (hname : IsName name) {q : String} (hq : q ≠ child p name) :
    zk.node q (zk.create n (child p name) e t).2 = zk.node q t := by
  rcases zk.create_cases (n := n) (p := p) (e := e) (t := t) hname with h | ⟨-, -, h⟩
  · rw [h]
  · rw [h q, if_neg hq]

/-- a node that is there stays -/
theorem create_grows (hname : IsName name) {q : String} {o : Owner} (hq : zk.node q t = some o) :
    zk.node q (zk.create n (child p name) e t).2 = some o := by
  rcases zk.create_cases (n := n) (p := p) (e := e) (t := t) hname with h | ⟨hnone, -, h⟩
  · rw [h]
    exact hq
  · rw [h q, if_neg (by rintro rfl; rw [hnone] at hq; cases hq)]
    exact hq

/-- behind a create a node that was not there belongs to its session -/
theorem create_self (hname : IsName name) (hnone : zk.node (child p name) t = none)
    (hp : p = "" ∨ zk.node p t = some .persistent) :
    zk.node (child p name) (zk.create n (child p name) e t).2 = some (.of n e) := by
  rw [(zk.create_new hname hnone hp).2, if_pos rfl]

/-- a node whose session does not end stays -/
theorem closeSession_keeps {q : String} {o : Owner} (hq : zk.node q t = some o) (ho : o ≠ .session n) :
    zk.node q (zk.closeSession n t) = some o := by
  rw [zk.node_close, hq, if_neg (by simpa using ho)]

/-- what is there behind the end of a session was there before, and belongs to another one -/
theorem close_shrinks {q : String} {o : Owner} (hq : zk.node q (zk.closeSession n t) = some o) :
    zk.node q t = some o ∧ o ≠ .session n := by
  rw [zk.node_close] at hq
  split_ifs at hq with h
  refine ⟨hq, ?_⟩
  rintro rfl
  exact h hq

end ZooKeeper

/-! ## A server -/

/-- the nodes, and a list of paths that has all of theirs -/
structure Tree where
  node : String → Option Owner
  paths : List String
  listed : ∀ q, node q ≠ none → q ∈ paths

namespace Tree

def empty : Tree := ⟨fun _ => none, [], fun _ h => absurd rfl h⟩

/-- what stands in front of the last slash -/
def parentOf (path : String) : String := String.ofList ((path.toList.reverse.dropWhile (· ≠ '/')).drop 1).reverse

/-- what stands behind it -/
def baseOf (path : String) : String := String.ofList (path.toList.reverse.takeWhile (· ≠ '/')).reverse

def add (path : String) (o : Owner) (t : Tree) : Tree where
  node := Function.update t.node path (some o)
  paths := path :: t.paths
  listed := by
    intro q hq
    by_cases h : q = path
    · rw [h]
      exact List.mem_cons_self
    · rw [Function.update_of_ne h] at hq
      exact List.mem_cons_of_mem path (t.listed q hq)

def create (n : ℕ) (path : String) (ephemeral : Bool) (t : Tree) : ℤ × Tree :=
  if t.node path ≠ none then (ZNODEEXISTS, t)
  else if parentOf path = "" then (ZOK, t.add path (.of n ephemeral))
  else
    match t.node (parentOf path) with
    | none => (ZNONODE, t)
    | some (.session _) => (ZNOCHILDRENFOREPHEMERALS, t)
    | some .persistent => (ZOK, t.add path (.of n ephemeral))

def closeSession (n : ℕ) (t : Tree) : Tree where
  node q := if t.node q = some (.session n) then none else t.node q
  paths := t.paths
  listed q hq := t.listed q fun h => hq (by rw [h, if_neg (by simp)])

def getChildren (path : String) (t : Tree) : ℤ × List String :=
  if t.node path = none then (ZNONODE, [])
  else
    (ZOK, ((t.paths.filter fun q => q = child path (baseOf q) ∧ baseOf q ≠ "" ∧ t.node q ≠ none).map baseOf).dedup)

theorem parentOf_child {p name : String} (hname : '/' ∉ name.toList) : parentOf (child p name) = p := by
  have hall : ∀ c ∈ name.toList.reverse, decide (c ≠ '/') = true := fun c hc =>
    decide_eq_true (ne_of_mem_of_not_mem (List.mem_reverse.1 hc) hname)
  rw [parentOf, child_toList, List.reverse_append, List.reverse_cons, List.append_assoc,
    List.dropWhile_append_of_pos hall]
  simp

theorem baseOf_child {p name : String} (hname : '/' ∉ name.toList) : baseOf (child p name) = name := by
  have hall : ∀ c ∈ name.toList.reverse, decide (c ≠ '/') = true := fun c hc =>
    decide_eq_true (ne_of_mem_of_not_mem (List.mem_reverse.1 hc) hname)
  rw [baseOf, child_toList, List.reverse_append, List.reverse_cons, List.append_assoc,
    List.takeWhile_append_of_pos hall]
  simp

theorem baseOf_not_mem (path : String) : '/' ∉ (baseOf path).toList := by
  intro h
  rw [baseOf, String.toList_ofList, List.mem_reverse] at h
  have hne := List.all_eq_true.1 List.all_takeWhile '/' h
  exact of_decide_eq_true hne rfl

theorem mem_getChildren {p : String} {t : Tree} (hp : t.node p ≠ none) (name : String) :
    name ∈ (getChildren p t).2 ↔ name ≠ "" ∧ '/' ∉ name.toList ∧ t.node (child p name) ≠ none := by
  simp only [getChildren, hp, if_false, List.mem_dedup, List.mem_map, List.mem_filter, decide_eq_true_eq]
  constructor
  · rintro ⟨q, ⟨-, hq, hne, hnode⟩, rfl⟩
    exact ⟨hne, baseOf_not_mem q, by rwa [← hq]⟩
  · intro ⟨hne, hname, hnode⟩
    have hbase := baseOf_child (p := p) hname
    exact ⟨child p name, ⟨t.listed _ hnode, by rw [hbase], by rwa [hbase], hnode⟩, hbase⟩

/-- the tree keeps what the documentation promises -/
def server : ZooKeeper Tree where
  node q t := t.node q
  create := create
  closeSession := closeSession
  getChildren := getChildren
  create_exists := by
    intro n p name e t _ hnode
    rw [create, if_pos hnode]
  create_orphan := by
    intro n p name e t hname hnode hp hnone
    rw [create, if_neg (not_not.2 hnode), parentOf_child hname.not_mem, if_neg hp, hnone]
  create_below := by
    intro n m p name e t hname hnode hp hsession
    rw [create, if_neg (not_not.2 hnode), parentOf_child hname.not_mem, if_neg hp, hsession]
  create_new := by
    intro n p name e t hname hnode hp
    have hcreate : create n (child p name) e t = (ZOK, t.add (child p name) (.of n e)) := by
      rw [create, if_neg (not_not.2 hnode), parentOf_child hname.not_mem]
      rcases hp with hp | hp
      · rw [if_pos hp]
      · rw [hp]
        split_ifs <;> rfl
    rw [hcreate]
    exact ⟨rfl, fun q => Function.update_apply t.node (child p name) _ q⟩
  node_close := fun _ => rfl
  children_none := by
    intro p t hnone
    rw [getChildren, if_pos hnone]
  children_some := by
    intro p t hp
    refine ⟨by rw [getChildren, if_neg hp], ?_, mem_getChildren hp⟩
    rw [getChildren, if_neg hp]
    exact List.nodup_dedup _

end Tree

end MCoroRpc.Zk
