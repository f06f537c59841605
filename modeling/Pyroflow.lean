import Pyroflow.Ask.Buttons
import Pyroflow.Commands.Live
import Pyroflow.Commands.Rest
import Pyroflow.Coordination.AtMostOnce
import Pyroflow.Coordination.Cancellation
import Pyroflow.Coordination.Handled
import Pyroflow.Coordination.Registry
import Pyroflow.Coordination.Waiting
import Pyroflow.Coordinator.Equivalence
import Pyroflow.Coordinator.Failures
import Pyroflow.Coordinator.Signals
import Pyroflow.Coordinator.Tokens
import Pyroflow.Dispatcher.Groups
import Pyroflow.Dispatcher.Lifecycle
import Pyroflow.Dispatcher.Workers
import Pyroflow.Filters.Texts
import Pyroflow.Listener.Asks
import Pyroflow.Listener.BotCommands
import Pyroflow.Listener.Cleanup
import Pyroflow.Listener.Completion
import Pyroflow.Listener.Disposition
import Pyroflow.Listener.Fencing
import Pyroflow.Listener.Guarded
import Pyroflow.Listener.Message
import Pyroflow.Listener.Misses
import Pyroflow.Listener.Registration
import Pyroflow.Listener.Stop
import Pyroflow.HistoryStore.Expiry
import Pyroflow.HistoryStore.Records
import Pyroflow.HistoryStore.Refinement
import Pyroflow.History.Sessions
import Pyroflow.Listener.Specificity
import Pyroflow.Models.SubKeys
