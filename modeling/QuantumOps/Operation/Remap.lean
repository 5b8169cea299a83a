import QuantumOps.Operation.Basic

/-!
Renaming the qubits of an operation, inside and out. Every qubit that an operation acts on must have
an entry in the mapping. The dictionaries of decomposition blocks and repeated measurements are
renamed as far as the mapping goes. An instruction to a device cannot be renamed at all. -/
namespace QuantumOps

variable {R : Type}

def Record.remap (m : Mapping) : Record R → Except RemapError (Record R)
  | singleQubit g q => return singleQubit g (← m.strict q)
  | twoQubit g c t => do
    let c' ← m.strict c
    let t' ← m.strict t
    if c' = t' then throw (.collision g.name c') else return twoQubit g c' t'
  | noise kind q time => return noise kind (← m.strict q) time
  | overrotation gate qs amplitude variance =>
    return overrotation gate (← m.strictList qs) amplitude variance
  | stopParallelBlock qs time => return stopParallelBlock (← m.strictList qs) time
  | sleep qs time => return sleep (← m.strictList qs) time
  | activeReset q => return activeReset (← m.strict q)
  | startDecompositionBlock qs reordering => do
    let reordering ← m.keepEntries m.keep "reordering_dictionary" reordering
    return startDecompositionBlock (← m.strictList qs) reordering
  | stopDecompositionBlock qs => return stopDecompositionBlock (← m.strictList qs)
  | changeDevice tags name encoded =>
    match m.firstMoved? with
    | some q => throw (.missing q)
    | none => return changeDevice tags name encoded
  | measureQubit q readout index => return measureQubit (← m.strict q) readout index
  | repeatedMeasurement readout number (some indices) =>
    return repeatedMeasurement readout number
      (some (← m.keepEntries (fun index => index) "qubit_mapping" indices))
  | r => return r

/-- Renames the qubits of a block, those of its circuit apart. -/
def Block.remap (m : Mapping) : Block R → Except RemapError (Block R)
  | controlled q => return controlled (← m.strict q)
  | pauliProduct paulis readout => return pauliProduct (← m.strictEntries paulis) readout
  | b => return b

mutual

def Operation.remap (m : Mapping) : Operation R → Except RemapError (Operation R)
  | .record r => return .record (← r.remap m)
  | .block b body => return .block (← b.remap m) (← Circuit.remap m body)
  | .annotated op note => return .annotated (← op.remap m) note

def Circuit.remap (m : Mapping) : List (Operation R) → Except RemapError (List (Operation R))
  | [] => return []
  | op :: rest => return (← op.remap m) :: (← Circuit.remap m rest)

end

end QuantumOps
