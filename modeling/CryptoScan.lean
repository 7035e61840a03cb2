import CryptoScan.Python.Text
import CryptoScan.Python.Regex
import CryptoScan.Python.Loop
import CryptoScan.Python.Generator
import CryptoScan.Python.FileTree
import CryptoScan.Python.Dict
import CryptoScan.Python.Float
import CryptoScan.Python.Division
import CryptoScan.Python.Json
import CryptoScan.Vocabulary
import CryptoScan.Categorize
import CryptoScan.Categorize.Program
import CryptoScan.Answer
import CryptoScan.Answer.Verified
import CryptoScan.Answer.Stable
import CryptoScan.Scan
import CryptoScan.Scan.Program
import CryptoScan.Scan.Stateful
import CryptoScan.Evaluate
import CryptoScan.Evaluate.Matrix
import CryptoScan.Evaluate.Program
import CryptoScan.Vecstore
import CryptoScan.Labels
import CryptoScan.VulnChecker
import CryptoScan.VulnChecker.Verified
import CryptoScan.VulnChecker.Program
