import UspClient.Budget.Protect
import UspClient.Budget.Loops
import UspClient.Budget.Checked
import UspClient.Budget.Fifo
import UspClient.Budget.Robin
import UspClient.Buffer.Cursor
import UspClient.Buffer.Drain
import UspClient.Buffer.Untracked
import UspClient.Event.Linear
import UspClient.Client.Options
import UspClient.Client.Leftovers
import UspClient.Client.Complete
import UspClient.System.Unblock
import UspClient.System.Failed
import UspClient.System.Covered
