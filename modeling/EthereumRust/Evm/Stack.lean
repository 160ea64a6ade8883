import EthereumRust.Evm.Execution

/-!
# The operand stack (`stack.rs`)

The source keeps the top word at the end of a `Vec`; here it is the head of a list, so index `n`
from the top is index `n` of the list.
-/

namespace EthereumRust.Evm

def STACK_LIMIT : Nat := 1024

structure Stack where
  data : List U256

namespace Stack

def new : Stack := ⟨[]⟩

def push (stack : Stack) (value : U256) : Except EvmError Stack :=
  if stack.data.length ≥ STACK_LIMIT then .error .StackOverflow else .ok ⟨value :: stack.data⟩

def pop (stack : Stack) : Except EvmError (U256 × Stack) :=
  match stack.data with
  | [] => .error .StackUnderflow
  | value :: rest => .ok (value, ⟨rest⟩)

def swap (stack : Stack) (n : Nat) : Except EvmError Stack :=
  if h : n < stack.data.length then
    let top := stack.data[0]
    .ok ⟨(stack.data.set 0 stack.data[n]).set n top⟩
  else .error .StackUnderflow

def dup (stack : Stack) (n : Nat) : Except EvmError Stack :=
  if h : n < stack.data.length then
    if stack.data.length ≥ STACK_LIMIT then .error .StackOverflow
    else .ok ⟨stack.data[n] :: stack.data⟩
  else .error .StackUnderflow

def len (stack : Stack) : Nat := stack.data.length

def require (stack : Stack) (n : Nat) : Except EvmError Unit :=
  if stack.data.length < n then .error .StackUnderflow else .ok ()

def limitCheck (stack : Stack) (n : Nat) : Except EvmError Unit :=
  if stack.data.length + n > STACK_LIMIT then .error .StackOverflow else .ok ()

end Stack

end EthereumRust.Evm
