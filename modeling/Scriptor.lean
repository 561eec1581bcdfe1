import Scriptor.Lts
import Scriptor.Proofs.FramingProofs
import Scriptor.Binary64
import Scriptor.Json.Grammar
import Scriptor.Json.Parser
import Scriptor.Proofs.JsonProofs
import Scriptor.Element
import Scriptor.Processor
import Scriptor.Proofs.ProcessorProofs
import Scriptor.Proofs.StreamProofs
import Scriptor.Fifo
import Scriptor.Logger
import Scriptor.Proofs.LoggerProofs
import Scriptor.Proofs.ShutdownProofs
import Scriptor.FanOut
import Scriptor.Proofs.ServerProofs
import Scriptor.Proofs.SinkFailureProofs
import Scriptor.Proofs.AcceptProofs
import Scriptor.Proofs.SessionOrderProofs
import Scriptor.Proofs.RetentionProofs
import Scriptor.Proofs.WorkerProofs
import Scriptor.Proofs.FieldProofs
import Scriptor.Proofs.SpellingProofs
import Scriptor.Proofs.Binary64Proofs
import Scriptor.Proofs.LevelProofs
import Scriptor.Proofs.TimeProofs
import Scriptor.Proofs.MicrosProofs
import Scriptor.Proofs.ProgressProofs
import Scriptor.Proofs.SettleProofs
import Scriptor.Proofs.DeliveryProofs
import Scriptor.Proofs.SinkCallProofs
import Scriptor.Json.Printer
import Scriptor.Proofs.PrinterProofs
import Scriptor.Client
import Scriptor.Proofs.ClientProofs
import Scriptor.Popl
import Scriptor.Proofs.PoplProofs
import Scriptor.Run
import Scriptor.Proofs.RunProofs
import Scriptor.Pool
import Scriptor.Proofs.PoolProofs
import Scriptor.Proofs.LifetimeProofs
