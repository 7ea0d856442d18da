import FiniteStateEntropy.Journal
import FiniteStateEntropy.Proofs.BitStack
import FiniteStateEntropy.Proofs.Block
import FiniteStateEntropy.Proofs.HeaderSpelling
import FiniteStateEntropy.Proofs.Converse
import FiniteStateEntropy.Proofs.CheckedHeader
import FiniteStateEntropy.Proofs.CheckedStream
import FiniteStateEntropy.Proofs.CheckedTables
import FiniteStateEntropy.Proofs.DecoderSafety
import FiniteStateEntropy.Proofs.EncoderSafety
import FiniteStateEntropy.Proofs.CompressionOutcome
import FiniteStateEntropy.Proofs.BlockContents
import FiniteStateEntropy.Proofs.SymbolCount
import FiniteStateEntropy.Proofs.ApportionmentOutcome
import FiniteStateEntropy.Proofs.Dealing
import FiniteStateEntropy.Proofs.Positions
import FiniteStateEntropy.Proofs.HeaderFraming
import FiniteStateEntropy.Proofs.StreamLength
import FiniteStateEntropy.Proofs.Accuracy
import FiniteStateEntropy.Proofs.FrequencyOrder
import FiniteStateEntropy.Proofs.Counting
import FiniteStateEntropy.Proofs.StateGroups
import FiniteStateEntropy.Proofs.BitQueue
import FiniteStateEntropy.Proofs.Levelling
import FiniteStateEntropy.Proofs.TableLog
