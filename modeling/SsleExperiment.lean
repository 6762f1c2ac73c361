import SsleExperiment.Cpp.Basic
import SsleExperiment.Math.Blocks
import SsleExperiment.Math.Choices
import SsleExperiment.Math.Numerals
import SsleExperiment.Cpp.Strings
import SsleExperiment.Cpp.Bitset
import SsleExperiment.Cpp.Memory
import SsleExperiment.Cpp.Flat
import SsleExperiment.Math.Runs
import SsleExperiment.Math.SignedRemainder
import SsleExperiment.Math.Encoder
import SsleExperiment.Math.Trellis
import SsleExperiment.Math.Endings
import SsleExperiment.Math.Fields
import SsleExperiment.Math.Generators
import SsleExperiment.Math.BinaryPolynomials
import SsleExperiment.Enclave.Prf
import SsleExperiment.Enclave.Obfuscation
import SsleExperiment.Enclave.Election
import SsleExperiment.Enclave.Ecall
import SsleExperiment.Enclave.Counts
import SsleExperiment.Enclave.Fairness
import SsleExperiment.Enclave.History
import SsleExperiment.Enclave.Replay
import SsleExperiment.Enclave.Rounds
import SsleExperiment.Enclave.Odds
import SsleExperiment.Enclave.Unmasking
import SsleExperiment.Enclave.Viterbi
import SsleExperiment.Enclave.Decoding
import SsleExperiment.Enclave.Puncturing
import SsleExperiment.Enclave.Punctures
import SsleExperiment.Enclave.Splitting
import SsleExperiment.Enclave.Survivors
import SsleExperiment.Enclave.Decodability
import SsleExperiment.Enclave.Generator
import SsleExperiment.Enclave.Complement
import SsleExperiment.Enclave.Flushing
import SsleExperiment.Enclave.Profiles
import SsleExperiment.Enclave.Nearest
import SsleExperiment.Enclave.Conversion
import SsleExperiment.Enclave.Hex
import SsleExperiment.Enclave.KeyPair
import SsleExperiment.Enclave.Calls
import SsleExperiment.Interaction.Session
import SsleExperiment.Interaction.Process
import SsleExperiment.Interaction.Memory
import SsleExperiment.Interaction.Progress
import SsleExperiment.Interaction.Exchange
import SsleExperiment.Interaction.Dialogue
import SsleExperiment.Interaction.Opening
import SsleExperiment.Interaction.Outcomes
import SsleExperiment.App.Node
import SsleExperiment.App.Buffer
import SsleExperiment.App.Communication
import SsleExperiment.App.Opening
import SsleExperiment.App.Registration
import SsleExperiment.App.Fragments
import SsleExperiment.App.Batch
import SsleExperiment.Utils.Bits
import SsleExperiment.Enclave.Keys
import SsleExperiment.Utils.Decoders
import SsleExperiment.Utils.Hex
import SsleExperiment.NonSgx.Participant
import SsleExperiment.NonSgx.Registration
import SsleExperiment.NonSgx.Commitment
import SsleExperiment.App.Launch
import SsleExperiment.App.Bridge
import SsleExperiment.App.Session
import SsleExperiment.App.Delivery
import SsleExperiment.App.Misreading
import SsleExperiment.App.Leader
import SsleExperiment.NonSgx.Session
import SsleExperiment.Utils.Words
