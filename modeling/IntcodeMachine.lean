import IntcodeMachine.Main
import IntcodeMachine.Proofs.Addressing
import IntcodeMachine.Proofs.Capacity
import IntcodeMachine.Proofs.Causality
import IntcodeMachine.Proofs.Clients
import IntcodeMachine.Proofs.Consoles
import IntcodeMachine.Proofs.DecodeFaults
import IntcodeMachine.Proofs.DigitLimit
import IntcodeMachine.Proofs.Encoding
import IntcodeMachine.Proofs.ErrorPlaces
import IntcodeMachine.Proofs.Files
import IntcodeMachine.Proofs.ForwardJumps
import IntcodeMachine.Proofs.LastWrites
import IntcodeMachine.Proofs.LineGrammar
import IntcodeMachine.Proofs.LineNumerals
import IntcodeMachine.Proofs.ParameterRows
import IntcodeMachine.Proofs.Piping
import IntcodeMachine.Proofs.Sessions
import IntcodeMachine.Proofs.SingleSteps
import IntcodeMachine.Proofs.Surroundings
import IntcodeMachine.Proofs.TraceLines
import IntcodeMachine.Proofs.Tracing
import IntcodeMachine.Proofs.Transcript
import IntcodeMachine.Proofs.UnreadWords
