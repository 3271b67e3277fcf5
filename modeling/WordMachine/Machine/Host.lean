import WordMachine.Machine.Step

/-! Everything that a host can ask of a machine, as data. A session is a list of calls; each is
answered, and leaves a machine for the next one. Calls that only look, and calls that are refused,
leave the machine as it is. -/

namespace WordMachine

inductive Call where
  | step
  | run (limit : Nat)
  | supply (text : String)
  | resolve (word : Int)
  | target (word : Int)
  | register (index : Int)
  | setRegister (index value : Int)
  | readMemory (addr : Int)
  | writeMemory (addr value : Int)
  deriving DecidableEq, Repr

inductive Answer where
  /-- the instruction that was executed -/
  | executed (op : Opcode)
  /-- how a run left the machine -/
  | rested (status : Status)
  | value (v : Int)
  | done
  deriving DecidableEq, Repr

/-- Why a call has no answer. -/
inductive CallError where
  | step (why : StepError)
  | refused (why : Refusal)
  /-- a fault of the host's own: it does not halt the machine -/
  | fault (why : Fault)
  /-- a fault of the host's own that cannot be told -/
  | untold (why : Fault)
  deriving DecidableEq, Repr

def CallError.ofFault (f : Fault) : CallError := if f.IsTold then .fault f else .untold f

namespace Machine

/-- The machine after a call that may change it: as it was, if the call has no answer. -/
def adopt {ε : Type} (m : Machine) (wrap : ε → CallError) :
    Except ε Machine → Except CallError Answer × Machine
  | .ok m' => (.ok .done, m')
  | .error e => (.error (wrap e), m)

/-- The answer of a call that only looks. -/
def look (m : Machine) : Except Fault Int → Except CallError Answer × Machine
  | .ok v => (.ok (.value v), m)
  | .error f => (.error (.ofFault f), m)

def call (m : Machine) : Call → Except CallError Answer × Machine
  | .step =>
    match m.step with
    | (.ok op, m) => (.ok (.executed op), m)
    | (.error e, m) => (.error (.step e), m)
  | .run limit =>
    match m.run limit with
    | (.ok _, m) => (.ok (.rested m.status), m)
    | (.error e, m) => (.error (.step e), m)
  | .supply text => m.adopt .refused (m.supply text)
  | .resolve word => m.look (m.resolve word)
  | .target word => m.look ((target word).map fun r => (r.val : Int))
  | .register index => m.look (m.register index)
  | .setRegister index value => m.adopt .ofFault (m.setRegister index value)
  | .readMemory addr => m.look (m.readMemory addr)
  | .writeMemory addr value => m.adopt .ofFault (m.writeMemory addr value)

/-- The machine after a session. -/
def afterCalls (m : Machine) : List Call → Machine
  | [] => m
  | c :: cs => (m.call c).2.afterCalls cs

theorem afterCalls_append (m : Machine) (cs ds : List Call) :
    m.afterCalls (cs ++ ds) = (m.afterCalls cs).afterCalls ds := by
  induction cs generalizing m with
  | nil => rfl
  | cons c cs ih => exact ih _

end Machine
end WordMachine
