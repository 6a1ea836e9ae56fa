import MiniEvm.Detectors.ContractUtils
import MiniEvm.Vm.Visits

namespace MiniEvm

open Math Framework

/-- What the code of a frame sees of its context: where it writes, who called it, and the value. -/
structure Context where
  address : Address
  caller : Address
  value : Int

def Contract.context (c : Contract) : Context := ⟨c.self, c.callerAddress, c.value⟩

theorem Contract.context_of_fixed {c c' : Contract} (h : c.fixed = c'.fixed) :
    c.context = c'.context := by
  have hcontext := congrArg Contract.context h
  exact hcontext

/-- Entered by `Call`, `StaticCall` or `Create`. -/
def Entry.ownsContext : Entry → Bool
  | call .. | staticCall .. | create .. => true
  | callCode .. | delegateCall .. => false

def Entry.isDelegate : Entry → Bool
  | delegateCall .. => true
  | _ => false

/-- The context that an entry point gives to the contract it launches. -/
def Entry.Gives (e : Entry) (caller : ContractRef) (c : Context) : Prop :=
  match e with
  | call addr _ value => c = ⟨addr, caller.address, value⟩
  | callCode _ _ value => c = ⟨caller.address, caller.address, value⟩
  | delegateCall _ _ => ∃ p, caller = .contract p ∧ c = p.context
  | staticCall addr _ => c = ⟨addr, caller.address, 0⟩
  | create _ value => c.caller = caller.address ∧ c.value = value

theorem Entry.prepare_gives {env : Env} {evm : Evm} {caller : ContractRef} {gas : UInt64} {e : Entry}
    {l : Launch} (h : e.prepare env evm caller gas = some (.inr l)) :
    e.Gives caller l.contract.context := by
  cases e with
  | call addr input value | callCode addr input value =>
    simp only [prepare] at h
    split at h
    · cases h
    · split_ifs at h
      · cases h
        rfl
      · cases h
  | delegateCall addr input =>
    simp only [prepare] at h
    split at h
    · cases h
    · obtain ⟨c, hc, h⟩ := Option.map_eq_some_iff.mp h
      cases h
      cases caller with
      | account a => cases hc
      | contract p =>
        cases hc
        exact ⟨p, rfl, rfl⟩
  | staticCall addr input =>
    simp only [prepare] at h
    split at h
    · cases h
    · cases h
      rfl
  | create code value =>
    simp only [prepare] at h
    split_ifs at h <;> cases h
    exact ⟨rfl, rfl⟩

/-- Only the context of a calling contract matters. -/
theorem Entry.Gives.congr {e : Entry} {p q : Contract} {c : Context}
    (h : e.Gives (.contract p) c) (hpq : p.context = q.context) : e.Gives (.contract q) c := by
  have haddr : p.self = q.self := congrArg Context.address hpq
  cases e with
  | delegateCall addr input =>
    obtain ⟨p', hp, rfl⟩ := h
    cases hp
    exact ⟨q, rfl, hpq⟩
  | call | callCode | staticCall =>
    have hc : c = _ := h
    simp only [ContractRef.address, haddr] at hc
    exact hc
  | create code value =>
    obtain ⟨hcaller, hvalue⟩ := h
    exact ⟨hcaller.trans haddr, hvalue⟩

/-- Every active frame got its context from the next one, the outermost from the first caller. -/
def Chained (caller : ContractRef) : List Activation → Prop
  | [] => True
  | [a] => a.entry.Gives caller a.contract.context
  | a :: b :: rest => a.entry.Gives (.contract b.contract) a.contract.context ∧
    Chained caller (b :: rest)

/-- The running frame has the context it was entered with. -/
theorem Reaches.context {env : Env} {k : Nat} {evm : Evm} {l : Launch} {fr : Frame}
    (h : Reaches env (interpreterRun env env.jumpTable k) l.begun (Frame.start l.contract l.input)
      evm fr) : fr.contract.context = l.contract.context := by
  have hfixed := (Reaches.evolves (Frame.start_begun _ _) h).2.1
  have hcontext := Contract.context_of_fixed hfixed
  exact hcontext

theorem Visits.chained {env : Env} {evm₀ evm : Evm} {caller : ContractRef} {gas : UInt64} {e : Entry}
    {acts : List Activation} {fr : Frame} (h : Visits env evm₀ caller gas e acts evm fr) :
    Chained caller acts ∧
      ∃ a rest, acts = a :: rest ∧ fr.contract.context = a.contract.context := by
  induction h with
  | root enters within =>
    exact ⟨Entry.prepare_gives enters.prepared, _, _, rfl, Reaches.context within⟩
  | @nested acts' _ _ _ _ _ _ op n i l _ outer ready hc charged invocation enters within ih =>
    obtain ⟨hchain, a, rest, rfl, hcontext⟩ := ih
    refine ⟨⟨?_, hchain⟩, _, _, rfl, Reaches.context within⟩
    refine (Entry.prepare_gives enters.prepared).congr ?_
    rw [← hcontext, OpCode.invocation_caller invocation]
    apply Contract.context_of_fixed
    rw [OpCode.handedOver_fixed, (charge_spec charged).fixed]

/-- The innermost frame has the address of the nearest frame that has a context of its own. -/
theorem Chained.address {caller : ContractRef} {a : Activation} {rest : List Activation}
    (h : Chained caller (a :: rest)) :
    a.contract.self = match (a :: rest).find? (·.entry.ownsContext) with
      | some owner => owner.contract.self
      | none => caller.address := by
  -- along the frames, innermost first; a frame without a context of its own has its parent's address
  induction rest generalizing a with
  | nil =>
    have hgives : a.entry.Gives caller a.contract.context := h
    rcases ha : a.entry with ⟨addr, input, value⟩ | ⟨addr, input, value⟩ | ⟨addr, input⟩ |
      ⟨addr, input⟩ | ⟨code, value⟩
    all_goals
      rw [ha] at hgives
      simp only [List.find?, ha, Entry.ownsContext]
    · exact congrArg Context.address hgives
    · obtain ⟨p, rfl, hp⟩ := hgives
      exact congrArg Context.address hp
  | cons b rest ih =>
    obtain ⟨hgives, hrest⟩ := h
    rcases ha : a.entry with ⟨addr, input, value⟩ | ⟨addr, input, value⟩ | ⟨addr, input⟩ |
      ⟨addr, input⟩ | ⟨code, value⟩
    all_goals
      rw [ha] at hgives
      rw [List.find?_cons]
      simp only [ha, Entry.ownsContext]
    · exact (congrArg Context.address hgives).trans (ih hrest)
    · obtain ⟨p, hp, hcontext⟩ := hgives
      cases hp
      exact (congrArg Context.address hcontext).trans (ih hrest)

/-- Through delegate calls the whole context is the one of the frame at the head of the chain. -/
theorem Chained.delegates {caller : ContractRef} {a : Activation} {rest : List Activation}
    (h : Chained caller (a :: rest)) :
    match (a :: rest).find? (fun b => !b.entry.isDelegate) with
      | some head => a.contract.context = head.contract.context
      | none => ∃ p, caller = .contract p ∧ a.contract.context = p.context := by
  induction rest generalizing a with
  | nil =>
    have hgives : a.entry.Gives caller a.contract.context := h
    rcases ha : a.entry with ⟨addr, input, value⟩ | ⟨addr, input, value⟩ | ⟨addr, input⟩ |
      ⟨addr, input⟩ | ⟨code, value⟩
    all_goals
      rw [ha] at hgives
      simp only [List.find?, ha, Entry.isDelegate, Bool.not_true, Bool.not_false]
    exact hgives
  | cons b rest ih =>
    obtain ⟨hgives, hrest⟩ := h
    rcases ha : a.entry with ⟨addr, input, value⟩ | ⟨addr, input, value⟩ | ⟨addr, input⟩ |
      ⟨addr, input⟩ | ⟨code, value⟩
    all_goals
      rw [ha] at hgives
      rw [List.find?_cons]
      simp only [ha, Entry.isDelegate, Bool.not_true, Bool.not_false]
    obtain ⟨p, hp, hcontext⟩ := hgives
    cases hp
    rw [hcontext]
    exact ih hrest

/-- The value of a `CALLCODE` is the third of its operands. -/
theorem OpCode.invocation_callCode {op : OpCode} {env : Env} {evm : Evm} {fr : Frame}
    {i : Invocation} {addr : Address} {input : Bytes} {value : Int}
    (h : op.invocation env evm fr = some i) (he : i.entry = .callCode addr input value) :
    ∃ x, fr.stack.back 2 = some x ∧ value = u256 x := by
  unfold invocation at h
  split at h
  case h_6 => cases h
  all_goals
    obtain ⟨args, -, rfl⟩ := Option.map_eq_some_iff.mp h
    cases he
  case h_3 hst =>
    rw [hst]
    exact ⟨_, rfl, rfl⟩

theorem Visits.callCode_value {env : Env} {evm₀ evm : Evm} {caller : ContractRef} {gas : UInt64}
    {e : Entry} {a b : Activation} {rest : List Activation} {fr : Frame} {addr : Address}
    {input : Bytes} {value : Int} (h : Visits env evm₀ caller gas e (a :: b :: rest) evm fr)
    (ha : a.entry = .callCode addr input value) :
    ∃ x, a.operands.back 2 = some x ∧ value = u256 x := by
  cases h with
  | nested outer ready hc charged invocation enters within =>
    have hvalue := OpCode.invocation_callCode invocation ha
    rw [Frame.expand_stack, (charge_spec charged).stack] at hvalue
    exact hvalue

/-- In every frame of every call tree: the address is the one of the nearest frame entered by a call,
a static call or a creation; a chain of delegate calls keeps caller and value of its head; under
`CALLCODE` the caller is the parent and the value the operand of the instruction. -/
theorem context_through_delegation {env : Env} {evm₀ evm : Evm} {caller : ContractRef} {gas : UInt64}
    {e : Entry} {acts : List Activation} {fr : Frame}
    (h : Visits env evm₀ caller gas e acts evm fr) :
    (∀ owner, acts.find? (·.entry.ownsContext) = some owner →
      fr.contract.self = owner.contract.self) ∧
    (acts.find? (·.entry.ownsContext) = none → fr.contract.self = caller.address) ∧
    (∀ head, acts.find? (fun b => !b.entry.isDelegate) = some head →
      fr.contract.callerAddress = head.contract.callerAddress ∧
        fr.contract.value = head.contract.value) ∧
    (acts.find? (fun b => !b.entry.isDelegate) = none → ∃ p, caller = .contract p ∧
      fr.contract.callerAddress = p.callerAddress ∧ fr.contract.value = p.value) ∧
    (∀ a parent rest addr input value, acts = a :: parent :: rest →
      a.entry = .callCode addr input value →
        fr.contract.callerAddress = parent.contract.self ∧
          ∃ x, a.operands.back 2 = some x ∧ fr.contract.value = u256 x) ∧
    ∀ a addr input value, acts = [a] → a.entry = .callCode addr input value →
      fr.contract.callerAddress = caller.address ∧ fr.contract.value = value := by
  obtain ⟨hchain, a, rest, rfl, hcontext⟩ := h.chained
  have hself : fr.contract.self = a.contract.self := congrArg Context.address hcontext
  have hcaller : fr.contract.callerAddress = a.contract.callerAddress :=
    congrArg Context.caller hcontext
  have hvalue : fr.contract.value = a.contract.value := congrArg Context.value hcontext
  have haddress := hchain.address
  have hdelegates := hchain.delegates
  refine ⟨?_, ?_, ?_, ?_, ?_, ?_⟩
  · intro owner hfind
    rw [hfind] at haddress
    exact hself.trans haddress
  · intro hfind
    rw [hfind] at haddress
    exact hself.trans haddress
  · intro head hfind
    rw [hfind] at hdelegates
    rw [hcaller, hvalue]
    exact ⟨congrArg Context.caller hdelegates, congrArg Context.value hdelegates⟩
  · intro hfind
    rw [hfind] at hdelegates
    obtain ⟨p, hp, hcontext'⟩ := hdelegates
    rw [hcaller, hvalue]
    exact ⟨p, hp, congrArg Context.caller hcontext', congrArg Context.value hcontext'⟩
  · rintro a' parent rest' addr input value hacts ha
    cases hacts
    obtain ⟨x, hx, rfl⟩ := h.callCode_value ha
    have hgives := hchain.1
    rw [ha] at hgives
    rw [hcaller, hvalue]
    exact ⟨congrArg Context.caller hgives, x, hx, congrArg Context.value hgives⟩
  · rintro a' addr input value hacts ha
    cases hacts
    have hgives : a.entry.Gives caller a.contract.context := hchain
    rw [ha] at hgives
    rw [hcaller, hvalue]
    exact ⟨congrArg Context.caller hgives, congrArg Context.value hgives⟩

/-- A contract that runs the code of a library in its own context. -/
def libraryUser : StateDB :=
  (StateDB.new.setCode 0x100
    [0x60, 0, 0x60, 0, 0x60, 0, 0x60, 0, 0x61, 2, 0, 0x61, 0xff, 0xff, 0xf4]).setCode 0x200 [0x00]

theorem context_through_delegation_library : ∃ owner a evm fr,
    Visits recursiveEnv (Evm.new libraryUser) (.account 7) 100000 (.call 0x100 [] 0) [a, owner] evm fr ∧
    a.entry.isDelegate = true ∧ fr.contract.self = owner.contract.self ∧
    fr.contract.callerAddress = owner.contract.callerAddress := by
  have hrun : (((Entry.call 0x100 [] 0).launch recursiveEnv (Evm.new libraryUser) (.account 7)
      100000).any fun l => (iterate recursiveEnv
        (interpreterRun recursiveEnv recursiveEnv.jumpTable 0) (fun _ _ => True) (fun _ _ => ())
        l.begun (Frame.start l.contract l.input) 6).any fun x =>
          (descend recursiveEnv x.2.1 x.2.2).any fun y => y.1.entry.isDelegate) = true := by
    decide +kernel
  obtain ⟨l, hl, hrun⟩ := Option.any_eq_true .. |>.mp hrun
  obtain ⟨⟨xs, evm, fr⟩, hx, hrun⟩ := Option.any_eq_true .. |>.mp hrun
  obtain ⟨⟨i, l'⟩, hd, hdelegate⟩ := Option.any_eq_true .. |>.mp hrun
  have outer := Visits.root (Entry.launch_enters hl) ⟨xs, iterate_iterates hx⟩
  have h := outer.descends hd
  have hcontext := context_through_delegation h
  have howns : i.entry.ownsContext = false := by
    cases hi : i.entry <;> simp [hi, Entry.isDelegate, Entry.ownsContext] at hdelegate ⊢
  refine ⟨_, _, _, _, h, hdelegate, hcontext.1 _ ?_, (hcontext.2.2.1 _ ?_).1⟩
  · simp only [List.find?, howns]
    rfl
  · have hchain : (!i.entry.isDelegate) = false := by
      rw [hdelegate]
      rfl
    simp only [List.find?, hchain]
    rfl

end MiniEvm
