import Mathlib.Data.List.MinMax
import MiniEvm.Detectors.Deployment

namespace MiniEvm

open Math Framework Abi

/-- The compiler's entry of a deployed contract. -/
def SimpleContract.source (c : SimpleContract) : SolcContract := ⟨c.name, c.bin, some c.abi⟩

/-- Methods and events of an interface that decodes. -/
def SolcContract.size (c : SolcContract) : Nat := (c.abi.map ABI.methodsAndEvents).getD 0

/-- The largest contract, the first of several; none without any method or event. -/
def largest (cs : List SolcContract) : Option SolcContract :=
  (cs.filter fun c => 0 < c.size).argmax SolcContract.size

theorem largest_append (cs : List SolcContract) (c : SolcContract) :
    largest (cs ++ [c]) =
      if ((largest cs).map SolcContract.size).getD 0 < c.size then some c else largest cs := by
  unfold largest
  rw [List.filter_append]
  by_cases hc : 0 < c.size
  · have hsingle : [c].filter (fun c => 0 < c.size) = [c] := by simp [hc]
    rw [hsingle, List.argmax_concat]
    cases (cs.filter fun c => 0 < c.size).argmax SolcContract.size with
    | none => simp [hc]
    | some m => rfl
  · have hnone : [c].filter (fun c => 0 < c.size) = [] := by simp [hc]
    rw [hnone, List.append_nil, if_neg (by omega)]

namespace Deployment

/-- The contracts that were created and whose interface decodes, in the order of their creation. -/
def deployedOf (created : List (SolcContract × Bool)) : List SolcContract :=
  (created.filter fun p => p.2 && p.1.abi.isSome).map Prod.fst

/-- The loop invariant: the map holds what was deployed so far, and the main contract is the largest
of it. -/
structure Tracks (d : Deployment) : Prop where
  contracts : d.contracts.map SimpleContract.source = deployedOf d.created
  main : d.main.map SimpleContract.source = largest (deployedOf d.created)
  count : d.methodsandeventscount = ((largest (deployedOf d.created)).map SolcContract.size).getD 0
  member : ∀ c, d.main = some c → c ∈ d.contracts

theorem Tracks.start : Tracks .start where
  contracts := rfl
  main := rfl
  count := rfl
  member := fun _ h => by cases h

theorem deployedOf_append (created : List (SolcContract × Bool)) (c : SolcContract) (ok : Bool) :
    deployedOf (created ++ [(c, ok)]) =
      deployedOf created ++ if ok && c.abi.isSome then [c] else [] := by
  unfold deployedOf
  rw [List.filter_append, List.map_append, List.filter_singleton]
  cases ok && c.abi.isSome <;> rfl

/-- A contract that is not deployed changes nothing that the invariant speaks of. -/
theorem Tracks.skip {d : Deployment} (h : d.Tracks) {c : SolcContract} {ok : Bool}
    (hskip : (ok && c.abi.isSome) = false) (evm : Evm) :
    Tracks { d with evm := evm, created := d.created ++ [(c, ok)] } := by
  have hsame : deployedOf (d.created ++ [(c, ok)]) = deployedOf d.created := by
    rw [deployedOf_append, hskip]
    exact List.append_nil _
  exact ⟨h.contracts.trans hsame.symm, hsame.symm ▸ h.main, hsame.symm ▸ h.count, h.member⟩

theorem Tracks.register {d : Deployment} (h : d.Tracks) (c : SolcContract) (r : CreateResult) :
    (d.register c r).Tracks := by
  unfold Deployment.register
  simp only
  by_cases herr : r.err = none
  · rw [if_neg (not_not.mpr herr)]
    cases habi : c.abi with
    | none => exact h.skip (by simp [habi]) _
    | some abidecode =>
      have hsource : SimpleContract.source ⟨c.name, r.contractAddr, c.bin, abidecode⟩ = c := by
        rw [SimpleContract.source, ← habi]
      have hsize : c.size = abidecode.methodsAndEvents := by rw [SolcContract.size, habi]; rfl
      have hnew : deployedOf (d.created ++ [(c, decide (r.err = none))]) =
          deployedOf d.created ++ [c] := by
        rw [deployedOf_append]
        simp [herr, habi]
      have hlargest := largest_append (deployedOf d.created) c
      rw [← h.count, hsize] at hlargest
      have hcontracts : (d.contracts ++ [(⟨c.name, r.contractAddr, c.bin, abidecode⟩ : SimpleContract)]).map
          SimpleContract.source = deployedOf d.created ++ [c] := by
        rw [List.map_append, h.contracts, List.map_singleton, hsource]
      simp only
      by_cases hmore : d.methodsandeventscount < abidecode.methodsAndEvents
      · rw [if_pos hmore] at hlargest
        rw [if_pos hmore]
        refine ⟨?_, ?_, ?_, ?_⟩
        · rw [hnew]
          exact hcontracts
        · rw [hnew, hlargest]
          exact congrArg some hsource
        · rw [hnew, hlargest]
          exact hsize.symm
        · intro c' hc'
          cases hc'
          exact List.mem_append_right _ (List.mem_singleton_self _)
      · rw [if_neg hmore] at hlargest
        rw [if_neg hmore]
        refine ⟨?_, ?_, ?_, ?_⟩
        · rw [hnew]
          exact hcontracts
        · rw [hnew, hlargest]
          exact h.main
        · rw [hnew, hlargest]
          exact h.count
        · intro c' hc'
          exact List.mem_append_left _ (h.member c' hc')
  · rw [if_pos herr]
    exact h.skip (by simp [herr]) _

theorem deployContracts_tracks {env : Env} {fuel : Nat} {order : List SolcContract} {d : Deployment}
    (h : deployContracts env fuel order = .ok d) : d.Tracks := by
  refine forEach_inv ?_ Tracks.start h
  intro c d d' hd hdeploy
  obtain ⟨r, -, hr⟩ := Outcome.bind_eq_ok.mp hdeploy
  cases hr
  exact hd.register c r

def names (d : Deployment) : List String := d.contracts.map SimpleContract.name

/-- The name of the main contract; that of the zero value is empty. -/
def mainName (d : Deployment) : String := (d.main.map SimpleContract.name).getD ""

end Deployment

/-- The constructors succeed or fail as `ok` says, in whatever order they run. -/
def ConstructorsIndependent (env : Env) (fuel : Nat) (s : SolcOutput) (ok : SolcContract → Bool) :
    Prop :=
  ∀ order, order.Perm s.contracts → ∃ d, deployContracts env fuel order = .ok d ∧
    d.created = order.map fun c => (c, ok c)

/-- The choice of the main contract does not depend on the order, and it is a deployed contract with
the most methods and events. -/
structure MainIndependent (env : Env) (fuel : Nat) (s : SolcOutput) : Prop where
  same : ∀ order order' d d', order.Perm s.contracts → order'.Perm s.contracts →
    deployContracts env fuel order = .ok d → deployContracts env fuel order' = .ok d' →
    (∀ n, n ∈ d.names ↔ n ∈ d'.names) ∧ d.mainName = d'.mainName
  main : ∀ order d, order.Perm s.contracts → deployContracts env fuel order = .ok d →
    ∃ c, d.main = some c ∧ c ∈ d.contracts ∧
      ∀ c' ∈ d.contracts, c'.abi.methodsAndEvents ≤ c.abi.methodsAndEvents

/-- The contract is created and its interface decodes. -/
def SolcContract.deploys (ok : SolcContract → Bool) (c : SolcContract) : Bool := ok c && c.abi.isSome

/-- One deployed contract has a method or event and more of them than every other one. -/
def HasLargest (s : SolcOutput) (ok : SolcContract → Bool) : Prop :=
  ∃ c ∈ s.contracts, c.deploys ok = true ∧ 0 < c.size ∧
    ∀ c' ∈ s.contracts, c'.deploys ok = true → c'.name ≠ c.name → c'.size < c.size

namespace ConstructorsIndependent

variable {env : Env} {fuel : Nat} {s : SolcOutput} {ok : SolcContract → Bool}

/-- What a deployment in some order leaves. -/
theorem result (h : ConstructorsIndependent env fuel s ok) {order : List SolcContract} {d : Deployment}
    (hperm : order.Perm s.contracts) (hd : deployContracts env fuel order = .ok d) :
    d.Tracks ∧ Deployment.deployedOf d.created = order.filter fun c => c.deploys ok := by
  obtain ⟨d', hd', hcreated⟩ := h order hperm
  rw [hd] at hd'
  cases hd'
  refine ⟨Deployment.deployContracts_tracks hd, ?_⟩
  unfold Deployment.deployedOf
  rw [hcreated, List.filter_map, List.map_map]
  exact List.map_id _

/-- The names and the main contract of that deployment. -/
theorem names_main (h : ConstructorsIndependent env fuel s ok) {order : List SolcContract}
    {d : Deployment} (hperm : order.Perm s.contracts)
    (hd : deployContracts env fuel order = .ok d) :
    d.names = (order.filter fun c => c.deploys ok).map SolcContract.name ∧
      d.main.map SimpleContract.source = largest (order.filter fun c => c.deploys ok) := by
  obtain ⟨htracks, hdeployed⟩ := h.result hperm hd
  rw [← hdeployed]
  refine ⟨?_, htracks.main⟩
  rw [← htracks.contracts, List.map_map]
  rfl

end ConstructorsIndependent

/-- The main contract is at least as large as every other one of the list. -/
theorem size_le_largest {cs : List SolcContract} {c m : SolcContract} (hc : c ∈ cs)
    (hm : largest cs = some m) : c.size ≤ m.size := by
  by_cases hpos : 0 < c.size
  · exact List.le_of_mem_argmax (List.mem_filter.mpr ⟨hc, by simpa using hpos⟩) hm
  · omega

theorem largest_mem {cs : List SolcContract} {m : SolcContract} (hm : largest cs = some m) :
    m ∈ cs ∧ 0 < m.size := by
  have hmem := List.mem_filter.mp (List.argmax_mem hm)
  exact ⟨hmem.1, by simpa using hmem.2⟩

/-- Of several largest contracts the first one is chosen. -/
theorem largest_cons {cs : List SolcContract} {c : SolcContract} (hpos : 0 < c.size)
    (hmax : ∀ c' ∈ cs, c'.size ≤ c.size) : largest (c :: cs) = some c := by
  unfold largest
  rw [List.filter_cons_of_pos (by simpa using hpos), List.argmax_cons]
  cases hm : (cs.filter fun c => 0 < c.size).argmax SolcContract.size with
  | none => rfl
  | some m =>
    have hle := hmax m (List.mem_filter.mp (List.argmax_mem hm)).1
    exact if_neg (Nat.not_lt.mpr hle)

theorem exists_largest {cs : List SolcContract} {c : SolcContract} (hc : c ∈ cs) (hpos : 0 < c.size) :
    ∃ m, largest cs = some m := by
  cases hm : largest cs with
  | some m => exact ⟨m, rfl⟩
  | none =>
    have hnil := List.argmax_eq_none.mp hm
    have hmem : c ∈ cs.filter fun c => 0 < c.size := List.mem_filter.mpr ⟨hc, by simpa using hpos⟩
    rw [hnil] at hmem
    cases hmem

variable {env : Env} {fuel : Nat} {s : SolcOutput} {ok : SolcContract → Bool}

theorem Deployment.mainName_eq (d : Deployment) :
    d.mainName = ((d.main.map SimpleContract.source).map SolcContract.name).getD "" := by
  rw [Option.map_map]
  rfl

/-- With one largest contract every order chooses it. -/
theorem largest_of_hasLargest {c : SolcContract} (hc : c ∈ s.contracts) (hdeploys : c.deploys ok = true)
    (hpos : 0 < c.size)
    (hless : ∀ c' ∈ s.contracts, c'.deploys ok = true → c'.name ≠ c.name → c'.size < c.size)
    {order : List SolcContract} (hperm : order.Perm s.contracts) :
    ∃ m, largest (order.filter fun c => c.deploys ok) = some m ∧ m.name = c.name := by
  have hmem : c ∈ order.filter fun c => c.deploys ok :=
    List.mem_filter.mpr ⟨hperm.mem_iff.mpr hc, hdeploys⟩
  obtain ⟨m, hm⟩ := exists_largest hmem hpos
  refine ⟨m, hm, ?_⟩
  by_contra hne
  obtain ⟨horder, hok⟩ := List.mem_filter.mp (largest_mem hm).1
  have hlt := hless m (hperm.mem_iff.mp horder) hok hne
  have hle := size_le_largest hmem hm
  omega

/-- A contract that is as large as the chosen one is chosen itself where it comes first. -/
theorem MainIndependent.hasLargest (hind : ConstructorsIndependent env fuel s ok)
    (h : MainIndependent env fuel s) : HasLargest s ok := by
  obtain ⟨d, hd, -⟩ := hind s.contracts (.refl _)
  obtain ⟨c₀, hmain, -, -⟩ := h.main s.contracts d (.refl _) hd
  obtain ⟨-, hlargest⟩ := hind.names_main (.refl _) hd
  rw [hmain] at hlargest
  have hm : largest (s.contracts.filter fun c => c.deploys ok) = some c₀.source := hlargest.symm
  obtain ⟨hmem, hpos⟩ := largest_mem hm
  obtain ⟨hc, hdeploys⟩ := List.mem_filter.mp hmem
  refine ⟨c₀.source, hc, hdeploys, hpos, ?_⟩
  intro c' hc' hdeploys' hname
  by_contra hnot
  have hmax : ∀ c ∈ s.contracts, c.deploys ok = true → c.size ≤ c'.size := by
    intro c hc hok
    have hle := size_le_largest (List.mem_filter.mpr ⟨hc, hok⟩) hm
    omega
  obtain ⟨l₁, l₂, hsplit⟩ := List.append_of_mem hc'
  have hperm : (c' :: (l₁ ++ l₂)).Perm s.contracts := by
    rw [hsplit]
    exact List.perm_middle.symm
  obtain ⟨d', hd', -⟩ := hind _ hperm
  obtain ⟨-, hlargest'⟩ := hind.names_main hperm hd'
  have hfirst : largest ((c' :: (l₁ ++ l₂)).filter fun c => c.deploys ok) = some c' := by
    rw [List.filter_cons_of_pos hdeploys']
    refine largest_cons (by omega) ?_
    intro c hc
    obtain ⟨hin, hok⟩ := List.mem_filter.mp hc
    exact hmax c (hperm.mem_iff.mp (List.mem_cons_of_mem _ hin)) hok
  rw [hfirst] at hlargest'
  obtain ⟨c₁, hmain', hsource⟩ := Option.map_eq_some_iff.mp hlargest'
  have hsame := (h.same _ _ d d' (.refl _) hperm hd hd').2
  unfold Deployment.mainName at hsame
  rw [hmain, hmain'] at hsame
  apply hname
  rw [← hsource]
  exact hsame.symm

/-- The choice of the main contract is independent of the order exactly if one deployed contract is
larger than all others and not empty. -/
theorem mainIndependent_iff (hind : ConstructorsIndependent env fuel s ok) :
    MainIndependent env fuel s ↔ HasLargest s ok := by
  constructor
  · intro h
    exact h.hasLargest hind
  · rintro ⟨c, hc, hdeploys, hpos, hless⟩
    constructor
    · intro order order' d d' hperm hperm' hd hd'
      obtain ⟨hnames, hmain⟩ := hind.names_main hperm hd
      obtain ⟨hnames', hmain'⟩ := hind.names_main hperm' hd'
      obtain ⟨m, hm, hname⟩ := largest_of_hasLargest hc hdeploys hpos hless hperm
      obtain ⟨m', hm', hname'⟩ := largest_of_hasLargest hc hdeploys hpos hless hperm'
      constructor
      · intro n
        rw [hnames, hnames']
        exact (((hperm.trans hperm'.symm).filter _).map _).mem_iff
      · rw [d.mainName_eq, d'.mainName_eq, hmain, hmain', hm, hm']
        exact hname.trans hname'.symm
    · intro order d hperm hd
      obtain ⟨htracks, hdeployed⟩ := hind.result hperm hd
      obtain ⟨m, hm, -⟩ := largest_of_hasLargest hc hdeploys hpos hless hperm
      have hmain := htracks.main
      rw [hdeployed, hm] at hmain
      obtain ⟨c₀, hc₀, rfl⟩ := Option.map_eq_some_iff.mp hmain
      refine ⟨c₀, hc₀, htracks.member c₀ hc₀, ?_⟩
      intro c' hc'
      have hmem : c'.source ∈ order.filter fun c => c.deploys ok := by
        rw [← hdeployed, ← htracks.contracts]
        exact List.mem_map_of_mem hc'
      exact size_le_largest hmem hm

/-- The record names the contracts in the order in which they were visited. -/
theorem created_fst {order : List SolcContract} {d d' : Deployment}
    (h : forEach (Deployment.deploy env fuel) order d = .ok d') :
    d'.created.map Prod.fst = d.created.map Prod.fst ++ order := by
  induction order generalizing d with
  | nil =>
    cases h
    exact (List.append_nil _).symm
  | cons c order ih =>
    obtain ⟨d₁, hdeploy, hrest⟩ := Outcome.bind_eq_ok.mp h
    obtain ⟨r, -, hr⟩ := Outcome.bind_eq_ok.mp hdeploy
    cases hr
    have hcreated : (d.register c r).created = d.created ++ [(c, decide (r.err = none))] := by
      unfold Deployment.register
      split_ifs
      · rfl
      · cases c.abi with
        | none => rfl
        | some abidecode =>
          simp only
          split_ifs <;> rfl
    rw [ih hrest, hcreated, List.map_append, List.append_assoc]
    rfl

theorem perm_pair {α : Type} {a b : α} {order : List α} (h : order.Perm [a, b]) :
    order = [a, b] ∨ order = [b, a] := by
  cases order with
  | nil => cases h.length_eq
  | cons x rest =>
    obtain rfl | hx := List.mem_cons.mp (h.mem_iff.mp List.mem_cons_self)
    · left
      rw [List.perm_singleton.mp ((List.perm_cons x).mp h)]
    · right
      obtain rfl := List.mem_singleton.mp hx
      have hswap : (x :: rest).Perm [x, a] := h.trans (.swap ..)
      rw [List.perm_singleton.mp ((List.perm_cons x).mp hswap)]

/-- An interface of `n` methods. -/
def methodsOnly (n : Nat) : ABI Argument where
  constructor := none
  methods := (List.range n).foldl (fun ms i => ms.insert (toString i) ⟨toString i, false, [], []⟩) ∅
  events := ∅

/-- Two contracts with empty constructors, of `m` and `n` methods. -/
def twoContracts (m n : Nat) : SolcOutput where
  contracts := [⟨"A", [], some (methodsOnly m)⟩, ⟨"B", [], some (methodsOnly n)⟩]
  nodup := by simp

/-- The deployment with a stand-in for the hash function that keeps the end of its input, and with it
the nonce of the creator. -/
def serialEnv : Env :=
  deployEnv { Crypto.zero with keccak256 := fun b => BitVec.ofNat 256 (ofBytes b) } 0

/-- Both constructors succeed in the two orders that there are. -/
theorem twoContracts_independent {m n : Nat}
    (h : ∀ order ∈ [(twoContracts m n).contracts, (twoContracts m n).contracts.reverse],
      (deployContracts serialEnv 10 order).Returns (fun d => ∀ p ∈ d.created, p.2 = true)) :
    ConstructorsIndependent serialEnv 10 (twoContracts m n) fun _ => true := by
  intro order hperm
  have horder : order ∈ [(twoContracts m n).contracts, (twoContracts m n).contracts.reverse] := by
    simpa [twoContracts] using perm_pair hperm
  obtain ⟨d, hd, hall⟩ := (h order horder).exists
  refine ⟨d, hd, ?_⟩
  have hfst : d.created.map Prod.fst = order := created_fst hd
  rw [← hfst, List.map_map]
  exact (List.map_id _).symm.trans (List.map_congr_left fun p hp => Prod.ext rfl (hall p hp))

theorem mainIndependent_iff_twoContracts : MainIndependent serialEnv 10 (twoContracts 1 2) := by
  refine (mainIndependent_iff (twoContracts_independent (by decide +kernel))).mpr ?_
  refine ⟨_, List.mem_cons_of_mem _ List.mem_cons_self, rfl, by decide, ?_⟩
  decide

/-- Of two contracts of the same size the one that is visited first becomes the main contract. -/
theorem main_depends_on_order :
    ConstructorsIndependent serialEnv 10 (twoContracts 1 1) (fun _ => true) ∧
    (deployContracts serialEnv 10 (twoContracts 1 1).contracts).Returns (fun d => d.mainName = "A") ∧
    (deployContracts serialEnv 10 (twoContracts 1 1).contracts.reverse).Returns
      (fun d => d.mainName = "B") ∧
    ¬ MainIndependent serialEnv 10 (twoContracts 1 1) := by
  have hA : (deployContracts serialEnv 10 (twoContracts 1 1).contracts).Returns
      (fun d => d.mainName = "A") := by decide +kernel
  have hB : (deployContracts serialEnv 10 (twoContracts 1 1).contracts.reverse).Returns
      (fun d => d.mainName = "B") := by decide +kernel
  refine ⟨twoContracts_independent (by decide +kernel), hA, hB, ?_⟩
  intro h
  obtain ⟨d, hd, hname⟩ := hA.exists
  obtain ⟨d', hd', hname'⟩ := hB.exists
  have hsame := (h.same _ _ d d' (.refl _) (List.reverse_perm _) hd hd').2
  rw [hname, hname'] at hsame
  exact absurd hsame (by decide)

end MiniEvm
