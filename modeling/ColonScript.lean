import ColonScript.Main
import ColonScript.Script
import ColonScript.Proofs.Basic
import ColonScript.Proofs.Grammar
import ColonScript.Proofs.Position
import ColonScript.Proofs.Scanning
import ColonScript.Proofs.Spelling
import ColonScript.Proofs.RoundTrip
import ColonScript.Proofs.Interpreter
import ColonScript.Proofs.Lowering
import ColonScript.Proofs.ModeAgreement
import ColonScript.Proofs.BlockGrammar
import ColonScript.Proofs.MemoryLayout
import ColonScript.Proofs.StoreInvariant
import ColonScript.Proofs.Output
import ColonScript.Proofs.Lockstep
import ColonScript.Proofs.Relining
import ColonScript.Proofs.BoundedOutput
import ColonScript.Proofs.ArgumentContents
import ColonScript.Proofs.ScriptCalls
import ColonScript.Proofs.Escaping
import ColonScript.Proofs.EchoedLiterals
import ColonScript.Proofs.LineNumbers
import ColonScript.Proofs.Surroundings
import ColonScript.Proofs.SessionMemory
import ColonScript.Proofs.ConstantPool
import ColonScript.Proofs.NestedScope
import ColonScript.Proofs.FormatExpansion
import ColonScript.Proofs.ByteScan
import ColonScript.Proofs.MissingValues
import ColonScript.Proofs.Concatenation
import ColonScript.Proofs.ReadBack
import ColonScript.Proofs.ReferencePlaces
import ColonScript.Proofs.StandaloneFormat
import ColonScript.Proofs.ErrorPlaces
import ColonScript.Proofs.FilesApart
import ColonScript.Proofs.DecimalText
import ColonScript.Proofs.ListedProgram
import ColonScript.Proofs.IntegerTexts
