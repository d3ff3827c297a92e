import Mnemos.AuthGate
import Mnemos.DatabaseMap
import Mnemos.Deadlines
import Mnemos.GlobLanguage
import Mnemos.IntegerTexts
import Mnemos.KafkaConnections
import Mnemos.KafkaFetch
import Mnemos.ListBudget
import Mnemos.ReplyCodec
import Mnemos.SetLimits
import Mnemos.SkipListQueries
import Mnemos.Snapshots
import Mnemos.SubscriptionIndex
import Mnemos.ToolCommands
import Mnemos.ZSetWindows
